import LightRAG.Storage.SidecarRebuild

/-!
# Runs of the sidecar rebuild

While no crash comes after the temporary keys of a half-published index are gone and before its
status keys are, an attempt that returns leaves the index of the rows.
-/

namespace LightRAG.SidecarRebuild
open List

section

variable {rows : Rows} {s : State} {k : Keys} {family : Family} {rest : List Family}
  {pattern : Pattern} {todo : List Pattern} {interrupted last : Bool} {scan : Scan String}
  {names : List String} {name : String} {ids : List String} {renamed : ℕ} {p : Probe}
  {found : Bool} {event : Event} {events more : List Event}

theorem State.Inv.probe (h : p.Holds rows s) : (s.probe rows p).Inv rows := by
  refine ⟨rfl,?_⟩
  cases p with
  | temp family => cases family <;> exact h
  | built => exact h
  | rows interrupted => exact h
  | writer => exact h
  | left family => exact h

theorem State.Inv.deleteByPatterns (h : s.keys.Cleared rows interrupted todo)
    (hpasses : s.passes = 0) : (s.deleteByPatterns rows interrupted todo).Inv rows := by
  cases todo with
  | cons pattern todo => exact ⟨h,Scan.covers_begin,hpasses⟩
  | nil =>
    have habsent := h.absent
    refine ⟨⟨h.some,fun family => (habsent family).1,?_⟩,⟨?_,?_⟩,hpasses⟩
    · intro family
      change s.keys.temp family ⊆ _
      rw [(habsent family).2]
      exact Finset.empty_subset _
    · intro id hid
      exact (Finset.mem_filter.mp hid).1
    · intro id hid
      exact .inl (Finset.mem_filter.mp hid).1

theorem State.Inv.afterDelete (h : s.keys.Cleared rows interrupted (pattern :: todo))
    (hcovers : scan.Covers (s.keys.names rows pattern) [])
    (hlast : last = true → ∀ n ∈ s.keys.names rows pattern, n ∉ scan.missing)
    (hpasses : s.passes = 0) :
    (s.afterDelete rows interrupted pattern scan todo last).Inv rows := by
  cases last with
  | true => exact .deleteByPatterns (h.next (hcovers.eq_empty (hlast rfl))) hpasses
  | false => exact ⟨h,hcovers,hpasses⟩

theorem State.Inv.afterWrite (h : s.keys.Building rows)
    (hcovers : scan.Covers (s.keys.unwritten rows) [])
    (hlast : last = true → ∀ id ∈ rows.keys, id ∉ scan.missing) (hpasses : s.passes = 0) :
    (s.afterWrite rows scan last).Inv rows := by
  cases last with
  | false => exact ⟨h,hcovers,hpasses⟩
  | true =>
    have hall : s.keys.unwritten rows = ∅ := by
      apply hcovers.eq_empty
      intro id hid
      exact hlast rfl id (mem_toFinset.mp (Finset.mem_filter.mp hid).1)
    exact .probe ⟨h.some,h.official,h.built hall,hpasses⟩

theorem State.Inv.publishPass (h : s.keys.Publishing rows family rest)
    (hpasses : s.passes + s.keys.tempKeys + rest.length + 1 ≤ maxPasses rows) :
    (s.publishPass rows family rest).Inv rows := by
  refine ⟨h,Scan.covers_begin,?_⟩
  change s.passes + 1 + s.keys.tempKeys + rest.length + 0 ≤ maxPasses rows
  omega

theorem State.Inv.afterRenames (h : s.keys.Publishing rows family rest)
    (hcovers : scan.Covers (s.keys.temp family).names [])
    (hlast : last = true → ∀ n ∈ (s.keys.temp family).names, n ∉ scan.missing)
    (hpasses : s.passes + s.keys.tempKeys + rest.length + renamed ≤ maxPasses rows) :
    (s.afterRenames rows family scan rest renamed last).Inv rows := by
  cases last with
  | false => exact ⟨h,hcovers,hpasses⟩
  | true =>
    have hempty : s.keys.temp family = ∅ := names_eq_empty.mp (hcovers.eq_empty (hlast rfl))
    unfold State.afterRenames
    by_cases hrenamed : renamed = 0
    · rw [if_pos hrenamed]
      obtain ⟨rfl,rfl⟩ | ⟨rfl,rfl,hstatus⟩ := h.order
      · apply State.Inv.publishPass ⟨h.some,h.split,h.apart,.inr ⟨rfl,rfl,hempty⟩⟩
        simp only [length_cons] at hpasses ⊢
        omega
      · have htemp : ∀ other, s.keys.temp other = ∅ := by
          intro other
          cases other with
          | status => exact hstatus
          | basename => exact hempty
        refine .probe ⟨⟨?_,htemp⟩,?_⟩
        · intro other
          rw [← h.split other,htemp other,Finset.union_empty]
        · omega
    · rw [if_neg hrenamed]
      apply State.Inv.publishPass h
      omega

theorem State.Inv.answer (h : p.Holds rows s)
    (hfound : found = true ↔ s.keys.names rows p.pattern ≠ ∅) :
    (s.answer rows p found).Inv rows := by
  cases p with
  | temp family =>
    cases found with
    | true =>
      apply State.Inv.probe
      cases family with
      | status => exact ⟨h.1,by simp,h.2⟩
      | basename => exact ⟨h.1,by simp,h.2.2⟩
    | false =>
      have hempty : s.keys.temp family = ∅ := by
        rw [← names_eq_empty]
        by_contra hne
        cases hfound.mpr hne
      cases family with
      | status => exact .probe ⟨h.1,hempty,h.2⟩
      | basename =>
        refine .probe ⟨h.1,?_,h.2.2⟩
        intro family
        cases family with
        | status => exact h.2.1
        | basename => exact hempty
  | built =>
    obtain ⟨hrecoverable,htemp,hpasses⟩ := h
    cases found with
    | true =>
      have hne : s.keys.official .status ≠ ∅ := fun heq =>
        hfound.mp rfl (names_eq_empty.mpr heq)
      obtain ⟨family,hpresent⟩ | hempty | hcomplete := hrecoverable.recognised
      · exact absurd (htemp family) hpresent
      · exact absurd hempty hne
      · exact ⟨hcomplete,hpasses.le.trans (Nat.zero_le _)⟩
    | false =>
      have hempty : s.keys.official .status = ∅ := by
        rw [← names_eq_empty]
        by_contra hne
        cases hfound.mpr hne
      exact .probe ⟨hrecoverable,fun _ => hempty,hpasses⟩
  | rows interrupted =>
    obtain ⟨hrecoverable,hstatus,hpasses⟩ := h
    cases found with
    | true =>
      change (s.deleteByPatterns rows interrupted (stalePatterns interrupted)).Inv rows
      apply State.Inv.deleteByPatterns _ hpasses
      refine ⟨?_,⟨[],rfl,by simp⟩,hstatus⟩
      intro hnil
      apply hfound.mp rfl
      simp [Probe.pattern,Keys.names,Dict.keys,hnil]
    | false =>
      have hnil : rows.entries = [] := by
        by_contra hne
        obtain ⟨e,es,heq⟩ := exists_cons_of_ne_nil hne
        have hin : e.1 ∈ s.keys.names rows .primary := by simp [Keys.names,Dict.keys,heq]
        have := hfound.mpr (Finset.ne_empty_of_mem hin)
        cases this
      have habsent := hrecoverable.blank hnil
      refine ⟨⟨?_,fun family => (habsent family).2⟩,hpasses.le.trans (Nat.zero_le _)⟩
      intro family
      rw [derived_nil hnil]
      exact (habsent family).1
  | writer =>
    obtain ⟨hrows,hofficial,htemp,hpasses⟩ := h
    have hnone : s.keys.names rows Probe.writer.pattern = ∅ :=
      names_eq_empty.mpr (hofficial .status)
    cases found with
    | true => exact absurd hnone (hfound.mp rfl)
    | false =>
      refine .publishPass ⟨hrows,?_,?_,.inl ⟨rfl,rfl⟩⟩ ?_
      · intro other
        rw [hofficial,htemp,Finset.empty_union]
      · intro other
        rw [names_eq_empty.mpr (hofficial other)]
        exact Finset.disjoint_empty_left _
      · simp only [Keys.tempKeys,htemp,maxPasses,length_cons,length_nil]
        omega
  | left family =>
    obtain ⟨hcomplete,hpasses⟩ := h
    have hnone : s.keys.names rows (Probe.left family).pattern = ∅ :=
      names_eq_empty.mpr (hcomplete.2 family)
    cases found with
    | true => exact absurd hnone (hfound.mp rfl)
    | false =>
      cases family with
      | status => exact .probe ⟨hcomplete,hpasses⟩
      | basename => exact ⟨hcomplete,hpasses⟩

section

variable (h : s.Inv rows)

include h

theorem State.Inv.start : (s.start rows).Inv rows := by
  unfold State.start
  split
  · rename_i hphase
    rw [State.Inv,hphase] at h
    exact .probe ⟨h.1,rfl⟩
  · rename_i hphase
    rw [State.Inv,hphase] at h
    exact .probe ⟨h.1.recoverable,rfl⟩
  · exact h

theorem State.Inv.page (hpromised : s.Promised rows (.page names last)) :
    (s.page rows names last).Inv rows := by
  have hinv := h
  unfold State.page
  split
  · rename_i p scan hphase
    rw [State.Inv,hphase] at h
    obtain ⟨rfl,hholds⟩ := h
    have hpromise := hpromised _ _ (by rw [hphase]; rfl)
    split
    · rename_i hne
      exact .answer hholds ⟨fun _ => hpromise.found hne,fun _ => rfl⟩
    · rename_i hnil
      rw [not_not] at hnil
      subst hnil
      split
      · rename_i hlast
        subst hlast
        exact .answer hholds ⟨(fun h => nomatch h),fun hne => absurd hpromise.absent hne⟩
      · exact hinv
  · rename_i interrupted pattern scan rest hphase
    rw [State.Inv,hphase] at h
    obtain ⟨hcleared,hcovers,hpasses⟩ := h
    have hpromise := hpromised _ _ (by rw [hphase]; rfl)
    have hlast : last = true → ∀ n ∈ s.keys.names rows pattern, n ∉ (scan.page names).missing := by
      rintro rfl
      exact hpromise.missing_page
    have hpage := hcovers.page names
    split
    · rename_i hnil
      subst hnil
      exact .afterDelete hcleared hpage hlast hpasses
    · exact ⟨hcleared,hpage,hlast,hpasses⟩
  · rename_i scan hphase
    rw [State.Inv,hphase] at h
    obtain ⟨hbuilding,hcovers,hpasses⟩ := h
    have hpromise := hpromised _ _ (by rw [hphase]; rfl)
    have hlast : last = true → ∀ id ∈ rows.keys, id ∉ (scan.page names).missing := by
      rintro rfl id hid
      exact hpromise.missing_page id (mem_toFinset.mpr hid)
    have hpage := hcovers.page names
    split
    · rename_i hnil
      subst hnil
      exact .afterWrite hbuilding hpage hlast hpasses
    · exact ⟨hbuilding,hpage,hlast,hpasses⟩
  · rename_i family scan rest renamed hphase
    rw [State.Inv,hphase] at h
    obtain ⟨hpublishing,hcovers,hpasses⟩ := h
    have hpromise := hpromised _ _ (by rw [hphase]; rfl)
    have hlast : last = true → ∀ n ∈ (s.keys.temp family).names,
        n ∉ (scan.page names).missing := by
      rintro rfl
      exact hpromise.missing_page
    have hpage := hcovers.page names
    cases names with
    | nil => exact .afterRenames hpublishing hpage hlast hpasses
    | cons name names => exact ⟨hpublishing,hpage,hlast,hpasses⟩
  · exact h

theorem State.Inv.command : (s.command rows).Inv rows := by
  unfold State.command
  split
  · rename_i interrupted pattern scan rest names last hphase
    rw [State.Inv,hphase] at h
    obtain ⟨hcleared,hcovers,hlast,hpasses⟩ := h
    obtain ⟨finished,heq,-⟩ := hcleared.finished
    have hpattern : pattern ≠ .primary := by
      apply @ne_primary _ interrupted
      rw [heq]
      simp
    have hsub : ∀ n ∈ (s.keys.delete pattern names).names rows pattern,
        n ∈ s.keys.names rows pattern := fun n hn => (mem_names_delete hn).1
    refine .afterDelete (hcleared.delete names) (hcovers.handle hsub ?_) ?_ hpasses
    · intro n hn hname
      exact absurd hname ((mem_names_delete hn).2 rfl hpattern)
    · intro hend n hn
      exact hlast hend n (hsub n hn)
  · rename_i scan ids last hphase
    rw [State.Inv,hphase] at h
    obtain ⟨hbuilding,hcovers,hlast,hpasses⟩ := h
    refine .afterWrite (hbuilding.write ids) (hcovers.handle ?_ ?_) hlast hpasses
    · intro id hid
      obtain ⟨family,e,he,hnot⟩ := mem_unwritten.mp hid
      exact mem_unwritten.mpr ⟨family,e,he,fun hin => hnot (mem_temp_write.mpr (.inl hin))⟩
    · intro id hid hbatch
      obtain ⟨family,e,he,hnot⟩ := mem_unwritten.mp hid
      exact absurd (mem_temp_write.mpr (.inr ⟨id,hbatch,he⟩)) hnot
  · rename_i family scan rest renamed name names last hphase
    rw [State.Inv,hphase] at h
    obtain ⟨hpublishing,hcovers,hlast,hpasses⟩ := h
    have hsub : ∀ n ∈ ((s.keys.rename family name).temp family).names,
        n ∈ (s.keys.temp family).names ∧ n ≠ name := by
      intro n hn
      rw [names_temp_rename,if_pos rfl,Finset.mem_erase] at hn
      exact ⟨hn.2,hn.1⟩
    have hcovers' : scan.Covers ((s.keys.rename family name).temp family).names names := by
      apply hcovers.handle fun n hn => (hsub n hn).1
      intro n hn hbatch
      exact (mem_cons.mp hbatch).resolve_left (hsub n hn).2
    have hlast' : last = true →
        ∀ n ∈ ((s.keys.rename family name).temp family).names, n ∉ scan.missing :=
      fun hend n hn => hlast hend n (hsub n hn).1
    have hpasses' : s.passes + (s.keys.rename family name).tempKeys + rest.length +
        (if name ∈ (s.keys.temp family).names then renamed + 1 else renamed) ≤
          maxPasses rows := by
      split
      · rename_i hname
        have := tempKeys_rename hname
        omega
      · rename_i hname
        rw [rename_of_not_mem hname]
        exact hpasses
    cases names with
    | nil => exact .afterRenames (hpublishing.rename name) hcovers' hlast' hpasses'
    | cons next names => exact ⟨hpublishing.rename name,hcovers',hlast',hpasses'⟩
  · exact h

theorem State.Inv.crash (hcovered : ¬ s.Exposed) :
    ({ s with phase := .idle } : State).Inv rows := by
  have hclearing : s.phase.Clearing → rows.entries ≠ [] → s.keys.Recoverable rows := by
    intro hphase hrows
    refine ⟨?_,fun hnil => absurd hnil hrows⟩
    by_cases htemp : ∀ family, s.keys.temp family = ∅
    · by_cases hstatus : s.keys.official .status = ∅
      · exact .inr (.inl hstatus)
      · exact absurd ⟨hphase,htemp,hstatus⟩ hcovered
    · rw [not_forall] at htemp
      exact .inl htemp
  have hpublishing : ∀ family rest, s.keys.Publishing rows family rest →
      s.keys.Recoverable rows := by
    intro family rest hpublishing
    refine ⟨?_,fun hnil => absurd hnil hpublishing.some⟩
    by_cases htemp : ∀ family, s.keys.temp family = ∅
    · refine .inr (.inr ⟨?_,htemp⟩)
      intro other
      rw [← hpublishing.split other,htemp,Finset.union_empty]
    · rw [not_forall] at htemp
      exact .inl htemp
  rw [State.Inv] at h
  cases hphase : s.phase with
  | idle =>
    rw [hphase] at h
    exact h
  | done =>
    rw [hphase] at h
    exact ⟨h.1.recoverable,h.2⟩
  | probe p scan =>
    rw [hphase] at h
    have hholds := h.2
    cases p with
    | temp family =>
      cases family with
      | status => exact ⟨hholds.1,by simp [hholds.2]⟩
      | basename => exact ⟨hholds.1,by simp [hholds.2.2]⟩
    | built => exact ⟨hholds.1,by simp [hholds.2.2]⟩
    | rows interrupted => exact ⟨hholds.1,by simp [hholds.2.2]⟩
    | writer =>
      obtain ⟨hrows,hofficial,-,hpasses⟩ := hholds
      exact ⟨⟨.inr (.inl (hofficial .status)),fun hnil => absurd hnil hrows⟩,by simp [hpasses]⟩
    | left family => exact ⟨hholds.1.recoverable,hholds.2⟩
  | clear interrupted pattern scan rest =>
    rw [hphase] at h hclearing
    exact ⟨hclearing trivial h.1.some,by simp [h.2.2]⟩
  | delete interrupted pattern scan rest names last =>
    rw [hphase] at h hclearing
    exact ⟨hclearing trivial h.1.some,by simp [h.2.2.2]⟩
  | build scan =>
    rw [hphase] at h
    exact ⟨⟨.inr (.inl (h.1.official .status)),fun hnil => absurd hnil h.1.some⟩,by simp [h.2.2]⟩
  | write scan ids last =>
    rw [hphase] at h
    exact ⟨⟨.inr (.inl (h.1.official .status)),fun hnil => absurd hnil h.1.some⟩,by simp [h.2.2.2]⟩
  | publish family scan rest renamed =>
    rw [hphase] at h
    refine ⟨hpublishing _ _ h.1,?_⟩
    simp only
    omega
  | rename family scan rest renamed name names last =>
    rw [hphase] at h
    refine ⟨hpublishing _ _ h.1,?_⟩
    simp only
    omega

theorem State.Inv.passes_le : s.passes ≤ maxPasses rows := by
  by_cases hexposed : s.Exposed
  · rw [State.Inv] at h
    cases hphase : s.phase with
    | clear interrupted pattern scan rest =>
      rw [hphase] at h
      simp [h.2.2]
    | delete interrupted pattern scan rest names last =>
      rw [hphase] at h
      simp [h.2.2.2]
    | _ =>
      have hclearing := hexposed.1
      rw [hphase] at hclearing
      exact hclearing.elim
  · exact (h.crash hexposed).2

theorem State.Inv.step (hpromised : s.Promised rows event)
    (hcovered : s.Covered event) : (s.step rows event).Inv rows := by
  cases event with
  | start => exact h.start
  | crash => exact h.crash (hcovered rfl)
  | page names last => exact h.page hpromised
  | command => exact h.command

theorem State.Inv.run (hpromised : s.PromisedRun rows events)
    (hcovered : s.CoveredRun rows events) : (s.run rows events).Inv rows := by
  induction events generalizing s with
  | nil => exact h
  | cons event events ih =>
    exact ih (h.step hpromised.1 hcovered.1) hpromised.2 hcovered.2

end

@[simp] theorem keys_deleteByPatterns :
    (s.deleteByPatterns rows interrupted todo).keys = s.keys := by
  cases todo <;> rfl

@[simp] theorem keys_afterDelete :
    (s.afterDelete rows interrupted pattern scan todo last).keys = s.keys := by
  cases last with
  | true => exact keys_deleteByPatterns
  | false => rfl

@[simp] theorem keys_afterWrite : (s.afterWrite rows scan last).keys = s.keys := by
  cases last <;> rfl

@[simp] theorem keys_afterRenames :
    (s.afterRenames rows family scan rest renamed last).keys = s.keys := by
  unfold State.afterRenames
  split
  · split
    · cases rest <;> rfl
    · rfl
  · rfl

@[simp] theorem keys_answer : (s.answer rows p found).keys = s.keys := by
  cases p with
  | temp family => cases family <;> cases found <;> rfl
  | built => cases found <;> rfl
  | rows interrupted =>
    cases found with
    | true => exact keys_deleteByPatterns
    | false => rfl
  | writer => cases found <;> rfl
  | left family => cases family <;> cases found <;> rfl

@[simp] theorem keys_start : (s.start rows).keys = s.keys := by
  unfold State.start
  split <;> rfl

@[simp] theorem keys_page : (s.page rows names last).keys = s.keys := by
  unfold State.page
  split
  · split
    · exact keys_answer
    · split
      · exact keys_answer
      · rfl
  · split
    · exact keys_afterDelete
    · rfl
  · split
    · exact keys_afterWrite
    · rfl
  · split
    · exact keys_afterRenames
    · rfl
  · rfl

theorem Keys.Absent.eq (h : k.Absent) {k' : Keys} (h' : k'.Absent) : k = k' := by
  obtain ⟨official,temp⟩ := k
  obtain ⟨official',temp'⟩ := k'
  have hofficial : official = official' :=
    funext fun family => (h family).1.trans (h' family).1.symm
  have htemp : temp = temp' := funext fun family => (h family).2.trans (h' family).2.symm
  rw [hofficial,htemp]

theorem absent_step (hderived : ∀ family, derived rows family = ∅) (h : s.keys.Absent) :
    (s.step rows event).keys.Absent := by
  cases event with
  | start =>
    rw [State.step,keys_start]
    exact h
  | crash => exact h
  | page names last =>
    rw [State.step,keys_page]
    exact h
  | command =>
    rw [State.step]
    unfold State.command
    split
    · rw [keys_afterDelete]
      intro family
      constructor
      · rw [Finset.eq_empty_iff_forall_notMem]
        intro e he
        have hin := (mem_official_delete.mp he).1
        rw [(h family).1] at hin
        cases hin
      · rw [Finset.eq_empty_iff_forall_notMem]
        intro e he
        have hin := (mem_temp_delete.mp he).1
        rw [(h family).2] at hin
        cases hin
    · rw [keys_afterWrite]
      intro family
      refine ⟨(h family).1,?_⟩
      rw [Finset.eq_empty_iff_forall_notMem]
      intro e he
      obtain hin | ⟨id,-,hentry⟩ := mem_temp_write.mp he
      · rw [(h family).2] at hin
        cases hin
      · have hin := mem_derived.mpr ⟨id,hentry⟩
        rw [hderived] at hin
        cases hin
    · rename_i family scan rest renamed name names last hphase
      have hsame : s.keys.rename family name = s.keys := by
        apply rename_of_not_mem
        rw [names_eq_empty.mpr (h family).2]
        exact Finset.notMem_empty name
      rw [hsame]
      cases names with
      | nil =>
        rw [keys_afterRenames]
        exact h
      | cons next names => exact h
    · exact h

/-- Attempts over a complete index with status keys only probe. -/
def State.Settled (rows : Rows) (k : Keys) (s : State) : Prop :=
  s.keys = k ∧
    match s.phase with
    | .idle => True
    | .done => True
    | .probe p scan => scan = .begin (k.names rows p.pattern) ∧ (p = .built ∨ ∃ f, p = .temp f)
    | _ => False

theorem State.Settled.step (hcomplete : k.Complete rows) (hne : k.official .status ≠ ∅)
    (h : s.Settled rows k) (hpromised : s.Promised rows event) :
    (s.step rows event).Settled rows k := by
  obtain ⟨rfl,hplace⟩ := h
  cases event with
  | crash => exact ⟨rfl,trivial⟩
  | start =>
    rw [State.step,State.start]
    split
    · exact ⟨rfl,rfl,.inr ⟨_,rfl⟩⟩
    · exact ⟨rfl,rfl,.inr ⟨_,rfl⟩⟩
    · exact ⟨rfl,hplace⟩
  | command =>
    rw [State.step]
    unfold State.command
    split
    · rename_i hphase
      rw [hphase] at hplace
      exact hplace.elim
    · rename_i hphase
      rw [hphase] at hplace
      exact hplace.elim
    · rename_i hphase
      rw [hphase] at hplace
      exact hplace.elim
    · exact ⟨rfl,hplace⟩
  | page names last =>
    rw [State.step]
    unfold State.page
    split
    · rename_i p scan hphase
      have hplace' := hplace
      rw [hphase] at hplace
      obtain ⟨rfl,hp⟩ := hplace
      have hpromise := hpromised _ _ (by rw [hphase]; rfl)
      split
      · rename_i hnames
        obtain rfl | ⟨family,rfl⟩ := hp
        · exact ⟨rfl,trivial⟩
        · exact absurd (names_eq_empty.mpr (hcomplete.2 family)) (hpromise.found hnames)
      · rename_i hnames
        rw [not_not] at hnames
        subst hnames
        split
        · rename_i hlast
          subst hlast
          obtain rfl | ⟨family,rfl⟩ := hp
          · exact absurd (names_eq_empty.mp hpromise.absent) hne
          · cases family with
            | status => exact ⟨rfl,rfl,.inr ⟨_,rfl⟩⟩
            | basename => exact ⟨rfl,rfl,.inl rfl⟩
        · exact ⟨rfl,hplace'⟩
    · rename_i hphase
      rw [hphase] at hplace
      exact hplace.elim
    · rename_i hphase
      rw [hphase] at hplace
      exact hplace.elim
    · rename_i hphase
      rw [hphase] at hplace
      exact hplace.elim
    · exact ⟨rfl,hplace⟩

theorem complete_stays (hlisted : derived rows .status = ∅ → derived rows .basename = ∅)
    (hcomplete : s.keys.Complete rows) (hphase : s.phase = .idle ∨ s.phase = .done)
    (hpromised : s.PromisedRun rows events) : (s.run rows events).keys = s.keys := by
  by_cases hstatus : derived rows .status = ∅
  · have hderived : ∀ family, derived rows family = ∅ := by
      intro family
      cases family with
      | status => exact hstatus
      | basename => exact hlisted hstatus
    have habsent : s.keys.Absent := fun family =>
      ⟨(hcomplete.1 family).trans (hderived family),hcomplete.2 family⟩
    have hrun : ∀ (events : List Event) (t : State), t.keys.Absent →
        (t.run rows events).keys.Absent := by
      intro events
      induction events with
      | nil => exact fun t ht => ht
      | cons event events ih => exact fun t ht => ih _ (absent_step hderived ht)
    exact (hrun events s habsent).eq habsent
  · have hne : s.keys.official .status ≠ ∅ := by
      rw [hcomplete.1]
      exact hstatus
    have hsettled : s.Settled rows s.keys := by
      refine ⟨rfl,?_⟩
      obtain h | h := hphase
      · rw [h]
        trivial
      · rw [h]
        trivial
    generalize hk : s.keys = k at hcomplete hne hsettled
    clear hk hphase
    induction events generalizing s with
    | nil => exact hsettled.1
    | cons event events ih =>
      exact ih hpromised.2 (hsettled.step hcomplete hne hpromised.1)

theorem Initial.recoverable (h : Initial rows k) : k.Recoverable rows := by
  induction h with
  | complete h => exact h.recoverable
  | absent h => exact h.recoverable
  | @left k events _ hpromised hcovered hphase ih =>
    have hidle : k.idle.Inv rows := ⟨ih,Nat.zero_le _⟩
    have hinv := hidle.run hpromised hcovered
    rw [State.Inv,hphase] at hinv
    exact hinv.1

theorem rebuild_crash_safe (rows : Rows)
    (hlisted : derived rows .status = ∅ → derived rows .basename = ∅)
    (k : Keys) (hk : Initial rows k) (events : List Event)
    (hpromised : k.idle.PromisedRun rows events) (hcovered : k.idle.CoveredRun rows events) :
    let s := k.idle.run rows events
    (s.phase = .done → s.keys.Complete rows) ∧
    (s.phase = .idle → s.keys.Recognised rows) ∧
    (s.keys.Complete rows → s.phase = .idle ∨ s.phase = .done →
      ∀ more, s.PromisedRun rows more → (s.run rows more).keys = s.keys) ∧
    s.passes ≤ maxPasses rows := by
  have hidle : k.idle.Inv rows := ⟨hk.recoverable,Nat.zero_le _⟩
  have hinv := hidle.run hpromised hcovered
  refine ⟨?_,?_,fun hcomplete hphase more => complete_stays hlisted hcomplete hphase,?_⟩
  · intro hphase
    rw [State.Inv,hphase] at hinv
    exact hinv.1
  · intro hphase
    rw [State.Inv,hphase] at hinv
    exact hinv.1.recognised
  · exact hinv.passes_le

end

def twoRows : Rows where
  entries := [("1", some ⟨some "pending", some "t", some "a", false⟩),
    ("2", some ⟨some "failed", some "t", some "b", false⟩)]
  nodup := by decide

def noKeys : Keys := ⟨fun _ => ∅, fun _ => ∅⟩

/-- An attempt that crashes after its first rename. -/
def halfPublished : List Event :=
  [.start, .page [] true, .page [] true, .page [] true, .page ["1"] false,
    .page [] true, .page [] true, .page [] true, .page ["1", "2"] true, .command,
    .page [] true, .page ["pending"] false, .command, .crash]

/-- The next attempt, up to the deletion of the last temporary key. -/
def temporaryKeysGone : List Event :=
  [.start, .page ["failed"] false, .page ["1"] false, .page ["failed"] true, .command,
    .page ["b", "a"] true, .command]

def republished : List Event :=
  [.page [] true, .page ["pending"] true, .command, .page ["2", "1"] true, .command,
    .page [] true, .page ["failed", "pending"] true, .command, .command, .page [] true,
    .page ["a", "b"] true, .command, .command, .page [] true, .page [] true, .page [] true]

theorem half_published_returned :
    let events := halfPublished ++ temporaryKeysGone ++
      [.crash, .start, .page [] true, .page [] true, .page ["pending"] false]
    let s := noKeys.idle.run twoRows events
    noKeys.idle.PromisedRun twoRows events ∧ s.phase = .done ∧ ¬ s.keys.Complete twoRows := by
  decide +kernel

theorem rebuild_crash_safe_republished :
    let s := noKeys.idle.run twoRows (halfPublished ++ temporaryKeysGone ++ republished)
    s.phase = .done ∧ s.keys.Complete twoRows := by
  have h := rebuild_crash_safe twoRows (by decide +kernel) noKeys (.absent fun _ => ⟨rfl,rfl⟩)
    (halfPublished ++ temporaryKeysGone ++ republished) (by decide +kernel) (by decide +kernel)
  have hdone : (noKeys.idle.run twoRows
      (halfPublished ++ temporaryKeysGone ++ republished)).phase = .done := by decide +kernel
  exact ⟨hdone,h.1 hdone⟩

end LightRAG.SidecarRebuild
