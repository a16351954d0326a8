import LightRAG.Pipeline.ScanJobs

/-!
# Runs of the scan-job store

Every call keeps the store within its limits, changes a record only under a newer version, never
changes a terminal record and never removes a running one whose lease has not expired.
-/

namespace LightRAG.ScanJobs
open Table Utf8 List

variable {T : Type}

structure Change (l : Limits T) (r r' : Record T) : Prop where
  running : r.status = .running
  trackId : r'.trackId = r.trackId
  version : r'.version = r.version + 1
  sound : r.Sound l → r'.Sound l

section Changes

variable {l : Limits T} {r : Record T}

theorem change_finish (hrunning : r.status = .running) (status : Status) (now : T) (message : Str) :
    Change l r (if message = [] then r.finish status now
      else (r.finish status now).withMessage l message) where
  running := hrunning
  trackId := by split <;> rfl
  version := by split <;> rfl
  sound hr := by
    split
    · exact hr.finish status now
    · exact (hr.finish status now).withMessage message

theorem maybeAbandon_cases [LinearOrder T] (l : Limits T) (now : T) (r : Record T) :
    ¬(r.status = .running ∧ r.leaseExpiresAt ≤ now) ∧ r.maybeAbandon l now = r ∨
    r.leaseExpiresAt ≤ now ∧ (r.maybeAbandon l now).status = .abandoned ∧
      Change l r (r.maybeAbandon l now) := by
  by_cases hexpired : r.status = .running ∧ r.leaseExpiresAt ≤ now
  · refine .inr ?_
    rw [Record.maybeAbandon,if_pos hexpired]
    refine ⟨hexpired.2,rfl,hexpired.1,rfl,rfl,?_⟩
    intro hr
    exact (hr.finish _ _).withMessage _
  · exact .inl ⟨hexpired,by rw [Record.maybeAbandon,if_neg hexpired]⟩

theorem trackId_maybeAbandon [LinearOrder T] (l : Limits T) (now : T) (r : Record T) :
    (r.maybeAbandon l now).trackId = r.trackId := by
  rcases maybeAbandon_cases l now r with ⟨-,hsame⟩ | ⟨-,-,hchange⟩
  · rw [hsame]
  · exact hchange.trackId

theorem Record.Sound.maybeAbandon [LinearOrder T] (hr : r.Sound l) (now : T) :
    (r.maybeAbandon l now).Sound l := by
  rcases maybeAbandon_cases l now r with ⟨-,hsame⟩ | ⟨-,-,hchange⟩
  · rw [hsame]
    exact hr
  · exact hchange.sound hr

theorem counts_maybeAbandon [LinearOrder T] (l : Limits T) (now : T) (r : Record T) :
    (r.maybeAbandon l now).counts = r.counts ∧
      (r.maybeAbandon l now).countersDropped = r.countersDropped := by
  rw [Record.maybeAbandon]
  split <;> exact ⟨rfl,rfl⟩

theorem frame_applyDelta (l : Limits T) (r : Record T) (change : Str × Delta) :
    (r.applyDelta l change).trackId = r.trackId ∧ (r.applyDelta l change).version = r.version := by
  have hcounted := counted_applyDelta (l := l) (r := r) change
  generalize r.applyDelta l change = r' at hcounted ⊢
  cases hcounted <;> exact ⟨rfl,rfl⟩

theorem frame_foldl (l : Limits T) (r : Record T) (deltas : List (Str × Delta)) :
    (deltas.foldl (Record.applyDelta l) r).trackId = r.trackId ∧
      (deltas.foldl (Record.applyDelta l) r).version = r.version := by
  induction deltas generalizing r with
  | nil => exact ⟨rfl,rfl⟩
  | cons change deltas ih =>
    have hone := frame_applyDelta l r change
    have hrest := ih (r.applyDelta l change)
    exact ⟨hrest.1.trans hone.1,hrest.2.trans hone.2⟩

theorem addSample_eq (l : Limits T) (r : Record T) (sample : Str × Str) :
    ∃ samples, r.addSample l sample = { r with samples := samples } := by
  simp only [Record.addSample]
  split
  · exact ⟨r.samples,rfl⟩
  · split
    · exact ⟨_,rfl⟩
    · split <;> exact ⟨_,rfl⟩

theorem apply_eq [Add T] (l : Limits T) (deltas : Option (List (Str × Delta)))
    (sample : Option (Str × Str)) (now : T) (r : Record T) :
    ∃ samples, r.apply l deltas sample now =
      let counted := (deltas.getD []).foldl (Record.applyDelta l) r
      { counted with
        samples := samples
        version := counted.version + 1
        updatedAt := now
        leaseExpiresAt := now + l.leaseSeconds } := by
  cases sample with
  | none => exact ⟨_,rfl⟩
  | some sample =>
    obtain ⟨samples,hsample⟩ :=
      addSample_eq l ((deltas.getD []).foldl (Record.applyDelta l) r) sample
    refine ⟨samples,?_⟩
    simp only [Record.apply,Option.elim_some,hsample]

theorem change_apply [Add T] (hrunning : r.status = .running)
    (deltas : Option (List (Str × Delta))) (sample : Option (Str × Str)) (now : T) :
    Change l r (r.apply l deltas sample now) := by
  obtain ⟨samples,happly⟩ := apply_eq l deltas sample now r
  have hframe := frame_foldl l r (deltas.getD [])
  refine ⟨hrunning,?_,?_,?_⟩
  · rw [happly]
    exact hframe.1
  · rw [happly]
    show _ + 1 = _
    rw [hframe.2]
  · intro hr
    exact hr.apply deltas sample now

end Changes

structure Store.Sound (s : Store T) : Prop where
  keys : (s.jobs.map Record.trackId).Nodup
  jobs : ∀ r ∈ s.jobs, r.Sound s.limits
  capacity : s.jobs.length ≤ s.limits.capacity

section Stores

variable {s s' : Store T} {r r' : Record T} {trackId : Str}

theorem job_mem (h : s.job trackId = some r) : r ∈ s.jobs ∧ r.trackId = trackId := mem_of_lookup h

theorem job_put (hjob : s.job trackId = some r) (hr' : r'.trackId = trackId) (k : Str) :
    (s.put r').job k = if k = trackId then some r' else s.job k := by
  rw [Store.put,Store.job,lookup_replace,hr']
  by_cases hk : k = trackId
  · rw [if_pos hk,if_pos hk,hk]
    show (s.job trackId).map _ = _
    rw [hjob]
    rfl
  · rw [if_neg hk,if_neg hk]
    rfl

theorem Store.Sound.put (hs : s.Sound) (hr' : r'.Sound s.limits) : (s.put r').Sound where
  keys := by
    rw [Store.put,map_replace]
    exact hs.keys
  jobs row hrow := by
    rcases mem_replace hrow with rfl | hold
    · exact hr'
    · exact hs.jobs row hold
  capacity := by
    rw [Store.put,Table.replace,length_updateWhere]
    exact hs.capacity

theorem Store.Sound.delete (hs : s.Sound) (p : Record T → Bool) :
    Store.Sound { s with jobs := deleteWhere p s.jobs } where
  keys := nodup_deleteWhere hs.keys
  jobs row hrow := hs.jobs row (mem_deleteWhere.mp hrow).1
  capacity := (length_deleteWhere_le _ _).trans hs.capacity

theorem job_delete (hs : s.Sound) (gone k : Str) :
    Store.job { s with jobs := deleteWhere (fun r => r.trackId = gone) s.jobs } k =
      if k = gone then none else s.job k := by
  rw [Store.job,lookup_deleteWhere hs.keys]
  show (s.job k).filter _ = _
  by_cases hk : k = gone
  · rw [if_pos hk]
    cases hjob : s.job k with
    | none => rfl
    | some r =>
      have hr := (job_mem hjob).2
      simp [hr,hk]
  · rw [if_neg hk]
    cases hjob : s.job k with
    | none => rfl
    | some r =>
      have hr := (job_mem hjob).2
      simp [hr,hk]

theorem length_evict (hr : r ∈ s.jobs) :
    (deleteWhere (fun job => job.trackId = r.trackId) s.jobs).length < s.jobs.length := by
  exact length_filter_lt_length_iff_exists.mpr ⟨r,hr,by simp⟩

variable [LinearOrder T]

theorem Store.Sound.abandon (hs : s.Sound) (now : T) :
    Store.Sound { s with jobs := s.jobs.map fun r => r.maybeAbandon s.limits now } where
  keys := by
    have hsame : (s.jobs.map fun r => r.maybeAbandon s.limits now).map Record.trackId =
        s.jobs.map Record.trackId := by
      rw [map_map]
      exact map_congr_left fun r _ => trackId_maybeAbandon s.limits now r
    rw [hsame]
    exact hs.keys
  jobs row hrow := by
    obtain ⟨r,hr,rfl⟩ := mem_map.mp hrow
    exact (hs.jobs r hr).maybeAbandon now
  capacity := by
    rw [length_map]
    exact hs.capacity

theorem evict_spec (h : s.evictOneTerminal = some s') :
    ∃ r ∈ s.jobs, r.status.isTerminal = true ∧
      s' = { s with jobs := deleteWhere (fun job => job.trackId = r.trackId) s.jobs } := by
  rw [Store.evictOneTerminal] at h
  generalize hterminal : (s.jobs.filterMap fun r =>
    if r.status.isTerminal then some (r.updatedAt, r.trackId) else none) = terminal at h
  cases hsorted : terminal.mergeSort Store.isEarlier with
  | nil =>
    rw [hsorted] at h
    cases h
  | cons oldest rest =>
    rw [hsorted] at h
    have hmem : oldest ∈ terminal.mergeSort Store.isEarlier := by
      rw [hsorted]
      exact mem_cons_self
    rw [mem_mergeSort,← hterminal,mem_filterMap] at hmem
    obtain ⟨r,hr,hpair⟩ := hmem
    by_cases hstatus : r.status.isTerminal = true
    · rw [if_pos hstatus] at hpair
      refine ⟨r,hr,hstatus,?_⟩
      have hpair := Option.some.inj hpair
      subst hpair
      exact (Option.some.inj h).symm
    · rw [if_neg hstatus] at hpair
      cases hpair

variable [Sub T]

theorem Store.Sound.reap (hs : s.Sound) (now : T) : (s.reap now).Sound :=
  (hs.abandon now).delete _

theorem job_reap (hs : s.Sound) (now : T) (k : Str) :
    (s.reap now).job k =
      ((s.job k).map fun r => r.maybeAbandon s.limits now).filter fun r =>
        !Store.isExpired s.limits now r := by
  have habandon := (hs.abandon now).keys
  rw [Store.reap,Store.job,lookup_deleteWhere habandon,
    lookup_map fun r => trackId_maybeAbandon s.limits now r]
  rfl

theorem reap_cases (hs : s.Sound) (now : T) (hjob : s.job trackId = some r) :
    (s.reap now).job trackId = some r ∨
    (∃ r', (s.reap now).job trackId = some r' ∧ r.status = .running ∧ r.version < r'.version ∧
      r'.status.isTerminal = true ∧ r.leaseExpiresAt ≤ now) ∨
    (s.reap now).job trackId = none ∧ (r.status.isTerminal = true ∨ r.leaseExpiresAt ≤ now) := by
  have hreap := job_reap hs now trackId
  rw [hjob,Option.map_some] at hreap
  rcases maybeAbandon_cases s.limits now r with ⟨-,hsame⟩ | ⟨hlease,habandoned,hchange⟩
  · rw [hsame] at hreap
    by_cases hexpired : Store.isExpired s.limits now r = true
    · refine .inr (.inr ⟨by simpa [Option.filter,hexpired] using hreap,.inl ?_⟩)
      simp only [Store.isExpired,Bool.and_eq_true] at hexpired
      exact hexpired.1
    · exact .inl (by simpa [Option.filter,hexpired] using hreap)
  · by_cases hexpired : Store.isExpired s.limits now (r.maybeAbandon s.limits now) = true
    · exact .inr (.inr ⟨by simpa [Option.filter,hexpired] using hreap,.inr hlease⟩)
    · refine .inr (.inl ⟨_,by simpa [Option.filter,hexpired] using hreap,hchange.running,?_,?_,hlease⟩)
      · rw [hchange.version]
        omega
      · rw [habandoned]
        decide

end Stores

section Operations

variable {s : Store T} {trackId ownerToken : Str}

theorem put_self {r : Record T} (hs : s.Sound) (hjob : s.job trackId = some r) : s.put r = s := by
  obtain ⟨hr,-⟩ := job_mem hjob
  have hsame : Table.replace Record.trackId r s.jobs = s.jobs := by
    conv_rhs => rw [← map_id s.jobs]
    apply map_congr_left
    intro row hrow
    by_cases hkey : row.trackId = r.trackId
    · simp [eq_of_key hs.keys hr hrow hkey.symm]
    · simp [hkey]
  rw [Store.put,hsame]

theorem cancel_cases (s : Store T) (trackId ownerToken message : Str) (now : T) :
    (∃ ok conflict record, (ok = false ∨ conflict ≠ none) ∧
      s.cancel trackId ownerToken message now = (⟨ok, conflict, record⟩, s)) ∨
    ∃ r r', s.job trackId = some r ∧ Change s.limits r r' ∧ r'.counts = r.counts ∧
      r'.countersDropped = r.countersDropped ∧
      s.cancel trackId ownerToken message now = (⟨true, none, some r'.toPublic⟩, s.put r') := by
  cases hjob : s.job trackId with
  | none =>
    refine .inl ⟨false,some .notFound,none,.inl rfl,?_⟩
    simp only [Store.cancel,hjob]
  | some r =>
    simp only [Store.cancel,hjob]
    by_cases howner : r.ownerToken ≠ ownerToken
    · exact .inl ⟨false,some .owner,none,.inl rfl,if_pos howner⟩
    · rw [if_neg howner]
      by_cases hstatus : r.status ≠ .running
      · refine .inl ⟨true,some .terminal,some r.toPublic,.inr ?_,if_pos hstatus⟩
        exact Option.some_ne_none _
      · rw [if_neg hstatus]
        rw [not_not] at hstatus
        refine .inr ⟨r,_,rfl,change_finish hstatus .cancelled now message,?_,?_,rfl⟩
        · split <;> rfl
        · split <;> rfl

theorem Store.Sound.append {r : Record T} (hs : s.Sound) (hr : r.Sound s.limits)
    (hnew : s.job r.trackId = none) (hroom : s.jobs.length < s.limits.capacity) :
    Store.Sound { s with jobs := s.jobs ++ [r] } where
  keys := nodup_append_new hs.keys (lookup_eq_none.mp hnew)
  jobs row hrow := by
    rcases mem_append.mp hrow with hold | hone
    · exact hs.jobs row hold
    · rw [mem_singleton.mp hone]
      exact hr
  capacity := by
    rw [length_append]
    exact hroom

section

variable [Add T]

theorem sound_fresh {now : T}
    (hbytes : (s.fresh trackId ownerToken now).approxBytes ≤ s.limits.recordMaxBytes) :
    (s.fresh trackId ownerToken now).Sound s.limits where
  bytes := hbytes
  counters := Nat.zero_le _
  values p hp := by cases hp
  samples p hp := by
    obtain ⟨name,-,rfl⟩ := mem_map.mp hp
    exact Nat.zero_le _
  items p hp := by
    obtain ⟨name,-,rfl⟩ := mem_map.mp hp
    intro item hitem
    cases hitem
  keys := nodup_nil
  buckets := by
    show (newSamples.map Prod.fst).Nodup
    decide

end

variable [LinearOrder T]

theorem guarded_cases (s : Store T) (trackId ownerToken : Str) (expectedVersion : Int) (now : T) (change : Record T → Record T) :
    (s.job trackId = none ∧
      s.guarded trackId ownerToken expectedVersion now change = (⟨false, some .notFound, none⟩, s)) ∨
    (∃ r conflict record, s.job trackId = some r ∧
      s.guarded trackId ownerToken expectedVersion now change =
        (⟨false, some conflict, record⟩, s.put (r.maybeAbandon s.limits now))) ∨
    ∃ r, s.job trackId = some r ∧ r.ownerToken = ownerToken ∧ r.status = .running ∧
      ¬r.leaseExpiresAt ≤ now ∧ r.version = expectedVersion ∧
      s.guarded trackId ownerToken expectedVersion now change =
        (⟨true, none, some (change r).toPublic⟩, (s.put r).put (change r)) := by
  cases hjob : s.job trackId with
  | none => exact .inl ⟨rfl,by simp only [Store.guarded,hjob]⟩
  | some r =>
    refine .inr ?_
    simp only [Store.guarded,hjob]
    by_cases howner : (r.maybeAbandon s.limits now).ownerToken ≠ ownerToken
    · exact .inl ⟨r,_,_,rfl,if_pos howner⟩
    · rw [if_neg howner]
      by_cases hstatus : (r.maybeAbandon s.limits now).status ≠ .running
      · exact .inl ⟨r,_,_,rfl,if_pos hstatus⟩
      · rw [if_neg hstatus]
        by_cases hversion : (r.maybeAbandon s.limits now).version ≠ expectedVersion
        · exact .inl ⟨r,_,_,rfl,if_pos hversion⟩
        · rw [if_neg hversion]
          refine .inr ⟨r,rfl,?_⟩
          rcases maybeAbandon_cases s.limits now r with ⟨hlive,hsame⟩ | ⟨-,habandoned,-⟩
          · rw [hsame] at howner hstatus hversion ⊢
            simp only [not_not] at howner hstatus hversion
            exact ⟨howner,hstatus,fun hlease => hlive ⟨hstatus,hlease⟩,hversion,rfl⟩
          · rw [habandoned] at hstatus
            exact absurd (by decide) hstatus

theorem seat_cases {r : Record T} (hs : s.Sound) (hr : r.Sound s.limits)
    (hnew : s.job r.trackId = none) :
    s.seat r = (⟨.capacityExceeded, none, ""⟩, s) ∨
    ∃ s', s.seat r = (⟨.accepted, some r.toPublic, ""⟩, s') ∧ s'.Sound ∧ s'.limits = s.limits ∧
      s'.job r.trackId = some r ∧ ∀ k, k ≠ r.trackId →
        s'.job k = s.job k ∨ s'.job k = none ∧ ∀ row, s.job k = some row →
          row.status.isTerminal = true := by
  by_cases hroom : s.jobs.length < s.limits.capacity
  · refine .inr ⟨_,if_pos hroom,hs.append hr hnew hroom,rfl,?_,?_⟩
    · rw [Store.job,lookup_append_new hnew,if_pos rfl]
    · intro k hk
      refine .inl ?_
      rw [Store.job,lookup_append_new hnew,if_neg hk]
      rfl
  · rw [Store.seat,if_neg hroom]
    cases hevict : s.evictOneTerminal with
    | none => exact .inl rfl
    | some evicted =>
      obtain ⟨oldest,holdest,hterminal,rfl⟩ := evict_spec hevict
      have hsmaller := length_evict holdest
      have hdelete := hs.delete fun job => job.trackId = oldest.trackId
      have hfull := hs.capacity
      have hnew' : Store.job { s with
          jobs := deleteWhere (fun job => job.trackId = oldest.trackId) s.jobs } r.trackId = none := by
        rw [job_delete hs]
        split
        · rfl
        · exact hnew
      refine .inr ⟨_,rfl,hdelete.append hr hnew' ?_,rfl,?_,?_⟩
      · dsimp only
        omega
      · rw [Store.job,lookup_append_new hnew',if_pos rfl]
      · intro k hk
        rw [Store.job,lookup_append_new hnew',if_neg hk]
        have hleft := job_delete hs oldest.trackId k
        by_cases hgone : k = oldest.trackId
        · rw [if_pos hgone] at hleft
          refine .inr ⟨hleft,?_⟩
          intro row hrow
          obtain ⟨hmem,hkey⟩ := job_mem hrow
          rw [eq_of_key hs.keys hmem holdest (hkey.trans hgone)]
          exact hterminal
        · rw [if_neg hgone] at hleft
          exact .inl hleft

variable [Sub T] [Add T]

theorem create_cases (hs : s.Sound) (trackId ownerToken : Str) (now : T) :
    (∃ result, result.outcome ≠ .accepted ∧ s.create trackId ownerToken now = (result, s)) ∨
    (∃ result, result.outcome ≠ .accepted ∧
      s.create trackId ownerToken now = (result, s.reap now)) ∨
    ∃ s', (s.reap now).job trackId = none ∧
      s.create trackId ownerToken now =
        (⟨.accepted, some (s.fresh trackId ownerToken now).toPublic, ""⟩, s') ∧
      s'.Sound ∧ s'.limits = s.limits ∧
      s'.job trackId = some (s.fresh trackId ownerToken now) ∧ ∀ k, k ≠ trackId →
        s'.job k = (s.reap now).job k ∨ s'.job k = none ∧ ∀ row, (s.reap now).job k = some row →
          row.status.isTerminal = true := by
  rw [Store.create]
  by_cases htrack : s.limits.identifierMaxBytes < size trackId
  · exact .inl ⟨s.tooLong "track_id",fun h => CreateOutcome.noConfusion h,if_pos htrack⟩
  · rw [if_neg htrack]
    by_cases howner : s.limits.identifierMaxBytes < size ownerToken
    · exact .inl ⟨s.tooLong "owner_token",fun h => CreateOutcome.noConfusion h,if_pos howner⟩
    · rw [if_neg howner]
      refine .inr ?_
      dsimp only
      cases hjob : (s.reap now).job trackId with
      | some existing => exact .inl ⟨_,fun h => CreateOutcome.noConfusion h,rfl⟩
      | none =>
        have hfresh : (s.reap now).fresh trackId ownerToken now = s.fresh trackId ownerToken now :=
          rfl
        rw [hfresh]
        by_cases hbytes : (s.reap now).limits.recordMaxBytes <
            (s.fresh trackId ownerToken now).approxBytes
        · exact .inl ⟨_,fun h => CreateOutcome.noConfusion h,if_pos hbytes⟩
        · rw [if_neg hbytes]
          have hsound : (s.fresh trackId ownerToken now).Sound s.limits :=
            sound_fresh (Nat.le_of_not_lt hbytes)
          rcases seat_cases (hs.reap now) (r := s.fresh trackId ownerToken now) hsound hjob
            with hrefused | ⟨s',hseat,hs',hlimits,hnew,hothers⟩
          · exact .inl ⟨_,fun h => CreateOutcome.noConfusion h,hrefused⟩
          · exact .inr ⟨s',rfl,hseat,hs',hlimits,hnew,hothers⟩

end Operations

def Call.now : Call T → Option T
  | .create _ _ now => some now
  | .update _ _ _ _ _ now => some now
  | .setStatus _ _ _ _ _ now => some now
  | .cancel _ _ _ now => some now
  | .get _ now => some now
  | .removeTerminal _ => none
  | .snapshot now => some now

section Calls

variable [LinearOrder T] [Sub T] [Add T] {s : Store T} {trackId : Str} {r : Record T}

def Store.Accepts (s : Store T) : Call T → Prop
  | .create trackId ownerToken now => (s.create trackId ownerToken now).1.outcome = .accepted
  | .update trackId ownerToken countDeltas sample expectedVersion now =>
    (s.update trackId ownerToken countDeltas sample expectedVersion now).1.ok = true
  | _ => False

inductive Effect (s : Store T) : Call T → Store T → Prop
  | same {c : Call T} (hidle : ¬s.Accepts c) : Effect s c s
  | reaped {c : Call T} {now : T} (hidle : ¬s.Accepts c) (hnow : c.now = some now) :
    Effect s c (s.reap now)
  | changed {c : Call T} {k : Str} {r₀ r' : Record T} (hidle : ¬s.Accepts c)
    (hjob : s.job k = some r₀) (hchange : r' = r₀ ∨ Change s.limits r₀ r')
    (hcounts : r'.counts = r₀.counts) (hdropped : r'.countersDropped = r₀.countersDropped) :
    Effect s c (s.put r')
  | applied {k ownerToken : Str} {countDeltas : Option (List (Str × Delta))}
    {sample : Option (Str × Str)} {expectedVersion : Int} {now : T} {r₀ : Record T}
    (hok : s.Accepts (.update k ownerToken countDeltas sample expectedVersion now))
    (hjob : s.job k = some r₀) (hrunning : r₀.status = .running) :
    Effect s (.update k ownerToken countDeltas sample expectedVersion now)
      (s.put (r₀.apply s.limits countDeltas sample now))
  | created {k ownerToken : Str} {now : T} {s' : Store T}
    (hok : s.Accepts (.create k ownerToken now)) (hfree : (s.reap now).job k = none)
    (hsound : s'.Sound) (hlimits : s'.limits = s.limits)
    (hnew : s'.job k = some (s.fresh k ownerToken now))
    (hothers : ∀ k', k' ≠ k → s'.job k' = (s.reap now).job k' ∨ s'.job k' = none ∧
      ∀ row, (s.reap now).job k' = some row → row.status.isTerminal = true) :
    Effect s (.create k ownerToken now) s'
  | removed {k : Str} {r₀ : Record T} (hjob : s.job k = some r₀)
    (hterminal : r₀.status.isTerminal = true) : Effect s (.removeTerminal k)
      { s with jobs := deleteWhere (fun r => r.trackId = k) s.jobs }

theorem Effect.abandoned {c : Call T} {k : Str} (hidle : ¬s.Accepts c) (hjob : s.job k = some r)
    (now : T) : Effect s c (s.put (r.maybeAbandon s.limits now)) := by
  have hcounts := counts_maybeAbandon s.limits now r
  refine .changed hidle hjob ?_ hcounts.1 hcounts.2
  rcases maybeAbandon_cases s.limits now r with ⟨-,hsame⟩ | ⟨-,-,habandon⟩
  · exact .inl hsame
  · exact .inr habandon

theorem effect (hs : s.Sound) (c : Call T) : Effect s c (s.call c).2 := by
  cases c with
  | create k ownerToken now =>
    show Effect s _ (s.create k ownerToken now).2
    rcases create_cases hs k ownerToken now with ⟨result,hrefused,hrun⟩ |
      ⟨result,hrefused,hrun⟩ | ⟨s',hfree,hrun,hs',hlimits,hnew,hothers⟩
    · have hidle : ¬s.Accepts (.create k ownerToken now) := by rwa [Store.Accepts,hrun]
      exact hrun ▸ .same hidle
    · have hidle : ¬s.Accepts (.create k ownerToken now) := by rwa [Store.Accepts,hrun]
      exact hrun ▸ .reaped hidle rfl
    · have hok : s.Accepts (.create k ownerToken now) := by rw [Store.Accepts,hrun]
      exact hrun ▸ .created hok hfree hs' hlimits hnew hothers
  | update k ownerToken countDeltas sample expectedVersion now =>
    show Effect s _ (s.update k ownerToken countDeltas sample expectedVersion now).2
    rw [Store.update]
    rcases guarded_cases s k ownerToken expectedVersion now
      fun r => r.apply s.limits countDeltas sample now with
      ⟨-,hrun⟩ | ⟨r₀,conflict,record,hjob₀,hrun⟩ | ⟨r₀,hjob₀,-,hrunning,-,-,hrun⟩
    · have hidle : ¬s.Accepts (.update k ownerToken countDeltas sample expectedVersion now) := by
        simp [Store.Accepts,Store.update,hrun]
      exact hrun ▸ .same hidle
    · have hidle : ¬s.Accepts (.update k ownerToken countDeltas sample expectedVersion now) := by
        simp [Store.Accepts,Store.update,hrun]
      exact hrun ▸ .abandoned hidle hjob₀ now
    · have hok : s.Accepts (.update k ownerToken countDeltas sample expectedVersion now) := by
        simp [Store.Accepts,Store.update,hrun]
      rw [put_self hs hjob₀] at hrun
      exact hrun ▸ .applied hok hjob₀ hrunning
  | setStatus k ownerToken status expectedVersion message now =>
    show Effect s _ (s.setStatus k ownerToken status expectedVersion message now).2
    rw [Store.setStatus]
    by_cases hstatus : (!status.isTerminal) = true
    · rw [if_pos hstatus]
      exact .same id
    · rw [if_neg hstatus]
      rcases guarded_cases s k ownerToken expectedVersion now
        fun r => if message = [] then r.finish status now
          else (r.finish status now).withMessage s.limits message with
        ⟨-,hrun⟩ | ⟨r₀,conflict,record,hjob₀,hrun⟩ | ⟨r₀,hjob₀,-,hrunning,-,-,hrun⟩
      · exact hrun ▸ .same id
      · exact hrun ▸ .abandoned id hjob₀ now
      · rw [put_self hs hjob₀] at hrun
        refine hrun ▸ .changed id hjob₀ (.inr (change_finish hrunning status now message)) ?_ ?_
        · split <;> rfl
        · split <;> rfl
  | cancel k ownerToken message now =>
    show Effect s _ (s.cancel k ownerToken message now).2
    rcases cancel_cases s k ownerToken message now with
      ⟨ok,conflict,record,-,hrun⟩ | ⟨r₀,r',hjob₀,hchange,hcounts,hdropped,hrun⟩
    · exact hrun ▸ .same id
    · exact hrun ▸ .changed id hjob₀ (.inr hchange) hcounts hdropped
  | get k now =>
    show Effect s _ (s.get k now).2
    cases hjob₀ : s.job k with
    | none =>
      simp only [Store.get,hjob₀]
      exact .same id
    | some r₀ =>
      simp only [Store.get,hjob₀]
      exact .abandoned id hjob₀ now
  | removeTerminal k =>
    show Effect s _ (s.removeTerminal k).2
    cases hjob₀ : s.job k with
    | none =>
      simp only [Store.removeTerminal,hjob₀]
      exact .same id
    | some r₀ =>
      by_cases hterminal : r₀.status.isTerminal = true
      · simp only [Store.removeTerminal,hjob₀,hterminal]
        exact .removed hjob₀ hterminal
      · simp only [Store.removeTerminal,hjob₀,if_neg hterminal]
        exact .same id
  | snapshot now => exact .reaped id rfl

def Creates (s : Store T) (c : Call T) (trackId : Str) : Prop :=
  ∃ ownerToken now, c = .create trackId ownerToken now ∧
    (s.create trackId ownerToken now).1.outcome = .accepted

/-- A job is kept, changes to a newer version or is gone, perhaps with a new one in its place. -/
inductive Fate (s : Store T) (c : Call T) (trackId : Str) (r : Record T) : Prop
  | kept (hjob : (s.call c).2.job trackId = some r) (hcreates : ¬Creates s c trackId)
  | changed {r' : Record T} (hjob : (s.call c).2.job trackId = some r')
    (hrunning : r.status = .running) (hversion : r.version < r'.version)
    (hcreates : ¬Creates s c trackId)
  | gone (hjob : (s.call c).2.job trackId = none ∨ Creates s c trackId)
    (hcause : r.status.isTerminal = true ∨ ∃ now, c.now = some now ∧ r.leaseExpiresAt ≤ now)

theorem Fate.of_same {c : Call T} (hafter : (s.call c).2 = s) (hcreates : ¬Creates s c trackId)
    (hjob : s.job trackId = some r) : Fate s c trackId r := by
  refine .kept ?_ hcreates
  rw [hafter]
  exact hjob

theorem Fate.of_put {c : Call T} {r₀ r' : Record T} {k : Str} (hjob₀ : s.job k = some r₀)
    (hr' : r' = r₀ ∨ Change s.limits r₀ r') (hafter : (s.call c).2 = s.put r')
    (hcreates : ¬Creates s c trackId) (hjob : s.job trackId = some r) : Fate s c trackId r := by
  have hkey : r'.trackId = k := by
    have hr₀ := (job_mem hjob₀).2
    rcases hr' with rfl | hchange
    · exact hr₀
    · rw [hchange.trackId,hr₀]
  have hput : (s.call c).2.job trackId = if trackId = k then some r' else s.job trackId := by
    rw [hafter,job_put hjob₀ hkey]
  by_cases hk : trackId = k
  · rw [if_pos hk] at hput
    have hsame : r₀ = r := by
      rw [← hk,hjob] at hjob₀
      exact (Option.some.inj hjob₀).symm
    subst hsame
    rcases hr' with rfl | hchange
    · exact .kept hput hcreates
    · refine .changed hput hchange.running ?_ hcreates
      rw [hchange.version]
      omega
  · rw [if_neg hk,hjob] at hput
    exact .kept hput hcreates

theorem Fate.of_reap {c : Call T} {now : T} (hs : s.Sound) (hnow : c.now = some now)
    (hafter : (s.call c).2 = s.reap now) (hcreates : ¬Creates s c trackId)
    (hjob : s.job trackId = some r) : Fate s c trackId r := by
  rcases reap_cases hs now hjob with hkept | ⟨r',hafter',hrunning,hversion,-⟩ | ⟨hgone,hcause⟩
  · exact .kept (hafter ▸ hkept) hcreates
  · exact .changed (hafter ▸ hafter') hrunning hversion hcreates
  · exact .gone (.inl (hafter ▸ hgone)) (hcause.imp_right fun hlease => ⟨now,hnow,hlease⟩)

theorem fate (hs : s.Sound) (c : Call T) (hjob : s.job trackId = some r) : Fate s c trackId r := by
  have heffect := effect hs c
  have hcreates : ¬s.Accepts c → ¬Creates s c trackId := by
    rintro hidle ⟨ownerToken,now,rfl,hok⟩
    exact hidle hok
  generalize hafter : (s.call c).2 = s' at heffect
  cases heffect with
  | same hidle => exact .of_same hafter (hcreates hidle) hjob
  | reaped hidle hnow => exact .of_reap hs hnow hafter (hcreates hidle) hjob
  | changed hidle hjob₀ hchange _ _ => exact .of_put hjob₀ hchange hafter (hcreates hidle) hjob
  | @applied k ownerToken countDeltas sample expectedVersion now r₀ _ hjob₀ hrunning =>
    refine .of_put hjob₀ (.inr (change_apply hrunning countDeltas sample now)) hafter ?_ hjob
    rintro ⟨ownerToken',now',hc,-⟩
    cases hc
  | @created k ownerToken now _ hok hfree _ _ _ hothers =>
    by_cases hk : trackId = k
    · subst hk
      refine .gone (.inr ⟨ownerToken,now,rfl,hok⟩) ?_
      rcases reap_cases hs now hjob with hkept | ⟨r',hafter',-⟩ | ⟨-,hcause⟩
      · rw [hfree] at hkept
        cases hkept
      · rw [hfree] at hafter'
        cases hafter'
      · exact hcause.imp_right fun hlease => ⟨now,rfl,hlease⟩
    · have hcreates : ¬Creates s (.create k ownerToken now) trackId := by
        rintro ⟨ownerToken',now',hc,-⟩
        cases hc
        exact hk rfl
      rw [← hafter] at hothers
      rcases hothers trackId hk with hsame | ⟨hgone,hterminal⟩
      · rcases reap_cases hs now hjob with hkept | ⟨r',hafter',hrunning,hversion,-⟩ |
          ⟨hgone,hcause⟩
        · exact .kept (hsame.trans hkept) hcreates
        · exact .changed (hsame.trans hafter') hrunning hversion hcreates
        · exact .gone (.inl (hsame.trans hgone))
            (hcause.imp_right fun hlease => ⟨now,rfl,hlease⟩)
      · refine .gone (.inl hgone) ?_
        rcases reap_cases hs now hjob with hkept | ⟨r',-,-,-,-,hlease⟩ | ⟨-,hcause⟩
        · exact .inl (hterminal r hkept)
        · exact .inr ⟨now,rfl,hlease⟩
        · exact hcause.imp_right fun hlease => ⟨now,rfl,hlease⟩
  | @removed k r₀ hjob₀ hterminal =>
    have hdelete := job_delete hs k trackId
    rw [← hafter] at hdelete
    by_cases hk : trackId = k
    · rw [if_pos hk] at hdelete
      have hsame : r₀ = r := by
        rw [← hk,hjob] at hjob₀
        exact (Option.some.inj hjob₀).symm
      exact .gone (.inl hdelete) (.inl (hsame ▸ hterminal))
    · rw [if_neg hk,hjob] at hdelete
      exact .kept hdelete (hcreates id)

theorem Store.Sound.call (hs : s.Sound) (c : Call T) :
    (s.call c).2.Sound ∧ (s.call c).2.limits = s.limits := by
  have heffect := effect hs c
  generalize (s.call c).2 = s' at heffect ⊢
  cases heffect with
  | same _ => exact ⟨hs,rfl⟩
  | @reaped _ now _ _ => exact ⟨hs.reap now,rfl⟩
  | changed _ hjob hchange _ _ =>
    have hr₀ := hs.jobs _ (job_mem hjob).1
    rcases hchange with rfl | hchange
    · exact ⟨hs.put hr₀,rfl⟩
    · exact ⟨hs.put (hchange.sound hr₀),rfl⟩
  | applied _ hjob _ => exact ⟨hs.put ((hs.jobs _ (job_mem hjob).1).apply _ _ _),rfl⟩
  | created _ _ hsound hlimits _ _ => exact ⟨hsound,hlimits⟩
  | removed _ _ => exact ⟨hs.delete _,rfl⟩

end Calls

end LightRAG.ScanJobs
