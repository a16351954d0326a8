import LightRAG.Storage.RedisSidecar

/-!
# The sidecar mirrors the rows

The sorted sets in every run; the sets of the sources in every run whose removals are of documents
that are no primaries.
-/

namespace LightRAG.RedisSidecar
open List Option Function

theorem takeWhile_bar {cs ds : List Char} (h : '|' ∉ cs) :
    (cs ++ '|' :: ds).takeWhile (fun c => c ≠ '|') = cs ∧
      (cs ++ '|' :: ds).dropWhile (fun c => c ≠ '|') = '|' :: ds := by
  induction cs with
  | nil => simp
  | cons c cs ih =>
    have hc : c ≠ '|' := fun heq => h (heq ▸ mem_cons_self)
    have hrest := ih fun hmem => h (mem_cons_of_mem _ hmem)
    simp only [cons_append,takeWhile_cons,dropWhile_cons,hc,ne_eq]
    exact ⟨congrArg _ hrest.1,hrest.2⟩

theorem splitMember_zsetMember {created id : String} (h : '|' ∉ created.toList) :
    splitMember (zsetMember created id) = (created, id) := by
  have hlist : (zsetMember created id).toList = created.toList ++ '|' :: id.toList := by
    simp [zsetMember]
  unfold splitMember
  rw [hlist,(takeWhile_bar h).1,(takeWhile_bar h).2]
  simp

theorem Row.created_bar (row : Row) : '|' ∉ row.created.toList := by
  unfold Row.created
  cases row.createdAt with
  | none => simp
  | some created => exact created.property

theorem Row.split_member (row : Row) (id : DocId) :
    splitMember (row.member id) = (row.created, id) :=
  splitMember_zsetMember row.created_bar

theorem Row.member_inj {row row' : Row} {id id' : DocId} (h : row.member id = row'.member id') :
    id = id' := by
  have hsplit := congrArg (fun m => (splitMember m).2) h
  simpa only [Row.split_member] using hsplit

section

variable {r : Redis} {id id' : DocId} {old new : Option Row} {status member key : String}
  {w w' : World} {e : Event} {c c' : Nat} {client : Client} {s : Scan} {es : List Event}

@[simp] theorem rows_indexStatus : (r.indexStatus id old new).rows = r.rows := by
  unfold Redis.indexStatus
  cases old <;> cases new <;> simp only <;> (repeat' split) <;> rfl

@[simp] theorem basename_indexStatus : (r.indexStatus id old new).basename = r.basename := by
  unfold Redis.indexStatus
  cases old <;> cases new <;> simp only <;> (repeat' split) <;> rfl

@[simp] theorem removals_indexStatus : (r.indexStatus id old new).removals = r.removals := by
  unfold Redis.indexStatus
  cases old <;> cases new <;> simp only <;> (repeat' split) <;> rfl

@[simp] theorem writes_indexStatus : (r.indexStatus id old new).writes = r.writes := by
  unfold Redis.indexStatus
  cases old <;> cases new <;> simp only <;> (repeat' split) <;> rfl

@[simp] theorem rows_indexBasename : (r.indexBasename id old new).rows = r.rows := by
  unfold Redis.indexBasename
  simp only
  (repeat' split) <;> rfl

@[simp] theorem zset_indexBasename : (r.indexBasename id old new).zset = r.zset := by
  unfold Redis.indexBasename
  simp only
  (repeat' split) <;> rfl

@[simp] theorem writes_indexBasename : (r.indexBasename id old new).writes = r.writes := by
  unfold Redis.indexBasename
  simp only
  (repeat' split) <;> rfl

theorem rows_exec : (r.exec id old new).rows = Function.update r.rows id new := by
  rw [Redis.exec,rows_indexBasename,rows_indexStatus]
  rfl

theorem writes_exec :
    (r.exec id old new).writes = Function.update r.writes id (r.writes id + 1) := by
  rw [Redis.exec,writes_indexBasename,writes_indexStatus]
  rfl

def Lists (row : Option Row) (id : DocId) (status member : String) : Prop :=
  status ≠ "" ∧ ∃ r, row = some r ∧ r.statusValue = status ∧ member = r.member id

theorem mem_zset_indexStatus :
    member ∈ (r.indexStatus id old new).zset status ↔
      Lists new id status member ∨ member ∈ r.zset status ∧ ¬ Lists old id status member := by
  unfold Redis.indexStatus
  have hzrem : ∀ (r : Redis) (st m : String), member ∈ (r.zrem st m).zset status ↔
      member ∈ r.zset status ∧ ¬ (st = status ∧ member = m) := by
    intro r st m
    simp only [Redis.zrem,update_apply]
    split
    · rename_i heq
      rw [Finset.mem_erase,heq]
      tauto
    · tauto
  have hzadd : ∀ (r : Redis) (st m : String), member ∈ (r.zadd st m).zset status ↔
      st = status ∧ member = m ∨ member ∈ r.zset status := by
    intro r st m
    simp only [Redis.zadd,update_apply]
    split
    · rename_i heq
      rw [Finset.mem_insert,heq]
      tauto
    · tauto
  have hlists : ∀ row : Row, Lists (some row) id status member ↔
      row.statusValue ≠ "" ∧ row.statusValue = status ∧ member = row.member id := by
    intro row
    constructor
    · rintro ⟨hne,r,hr,rfl,hm⟩
      cases hr
      exact ⟨hne,rfl,hm⟩
    · rintro ⟨hne,rfl,hm⟩
      exact ⟨hne,row,rfl,rfl,hm⟩
  have hnone : ¬ Lists none id status member := by
    rintro ⟨-,r,hr,-⟩
    cases hr
  cases old with
  | none =>
    cases new with
    | none => simp only [hnone]; tauto
    | some row =>
      simp only
      split
      · rw [hlists]
        tauto
      · rw [hzadd,hlists]
        tauto
  | some oldRow =>
    have hafter : ∀ x, x = (if oldRow.statusValue = "" then r
          else r.zrem oldRow.statusValue (oldRow.member id)) →
        (member ∈ x.zset status ↔ member ∈ r.zset status ∧
          ¬ Lists (some oldRow) id status member) := by
      rintro x rfl
      rw [hlists]
      split
      · tauto
      · rw [hzrem]
        tauto
    cases new with
    | none =>
      simp only [hnone,false_or]
      exact hafter _ rfl
    | some row =>
      simp only
      split
      · rw [hafter _ rfl,hlists row]
        tauto
      · rw [hzadd,hafter _ rfl,hlists row]
        tauto

theorem Redis.StatusMirror.exec (h : r.StatusMirror) (hold : r.rows id = old) :
    (r.exec id old new).StatusMirror := by
  intro status member
  have hzset : (r.exec id old new).zset status =
      ((r.setRow id new).indexStatus id old new).zset status := by
    rw [Redis.exec,zset_indexBasename]
  rw [hzset,mem_zset_indexStatus,rows_exec]
  have hbefore : member ∈ (r.setRow id new).zset status ↔ _ := h status member
  rw [hbefore]
  constructor
  · rintro (⟨hne,row,hrow,hstatus,hm⟩ | ⟨⟨hne,id',row,hrow,hstatus,hm⟩,hnot⟩)
    · exact ⟨hne,id,row,by rw [update_self,hrow],hstatus,hm⟩
    · have hother : id' ≠ id := by
        rintro rfl
        exact hnot ⟨hne,row,hold ▸ hrow,hstatus,hm⟩
      exact ⟨hne,id',row,by rw [update_of_ne hother,hrow],hstatus,hm⟩
  · rintro ⟨hne,id',row,hrow,hstatus,hm⟩
    rw [update_apply] at hrow
    by_cases hid : id' = id
    · rw [if_pos hid] at hrow
      exact .inl ⟨hne,row,hrow,hstatus,hid ▸ hm⟩
    · rw [if_neg hid] at hrow
      refine .inr ⟨⟨hne,id',row,hrow,hstatus,hm⟩,?_⟩
      rintro ⟨-,row',-,-,hm'⟩
      exact hid (Row.member_inj (hm.symm.trans hm'))

variable {key' : String}

theorem mem_srem {id' : DocId} : id' ∈ (r.srem key id).basename key' ↔
    id' ∈ r.basename key' ∧ ¬ (key' = key ∧ id' = id) := by
  simp only [Redis.srem,update_apply]
  split
  · rename_i heq
    rw [Finset.mem_erase,heq]
    tauto
  · tauto

theorem mem_sadd : id' ∈ (r.sadd key id).basename key' ↔
    key' = key ∧ id' = id ∨ id' ∈ r.basename key' := by
  simp only [Redis.sadd,update_apply]
  split
  · rename_i heq
    rw [Finset.mem_insert,heq]
    tauto
  · tauto

theorem removals_srem (h : ¬ (key' = key ∧ id' = id)) :
    (r.srem key id).removals key' id' = r.removals key' id' := by
  simp only [Redis.srem,update_apply]
  split
  · rename_i heq
    rw [update_of_ne fun hid => h ⟨heq,hid⟩,heq]
  · rfl

theorem indexBasename_keeps (r : Redis) (old : Option Row) (hnew : id' = id → new.bind Row.basenameOf = some key') :
    (id' ∈ r.basename key' ∨ id' = id → id' ∈ (r.indexBasename id old new).basename key') ∧
      (r.indexBasename id old new).removals key' id' = r.removals key' id' := by
  unfold Redis.indexBasename
  by_cases hsame : old.bind Row.basenameOf = new.bind Row.basenameOf
  · rw [if_pos hsame]
    cases hkey : new.bind Row.basenameOf with
    | none =>
      rw [hkey] at hnew
      exact ⟨fun h => h.resolve_right fun hid => (nomatch hnew hid),rfl⟩
    | some key =>
      refine ⟨fun h => ?_,rfl⟩
      rw [mem_sadd]
      refine h.symm.imp_left fun hid => ⟨?_,hid⟩
      rw [hkey] at hnew
      exact (some.inj (hnew hid)).symm
  · rw [if_neg hsame]
    -- the source that the document leaves is not the one that it joins
    have hleaves : ∀ key, old.bind Row.basenameOf = some key → ¬ (key' = key ∧ id' = id) := by
      rintro key hold ⟨rfl,hid⟩
      exact hsame (hold.trans (hnew hid).symm)
    cases hold : old.bind Row.basenameOf with
    | none =>
      cases hkey : new.bind Row.basenameOf with
      | none =>
        rw [hkey] at hnew
        exact ⟨fun h => h.resolve_right fun hid => (nomatch hnew hid),rfl⟩
      | some key =>
        refine ⟨fun h => ?_,rfl⟩
        simp only [mem_sadd]
        refine h.symm.imp_left fun hid => ⟨?_,hid⟩
        rw [hkey] at hnew
        exact (some.inj (hnew hid)).symm
    | some oldKey =>
      have hout := hleaves oldKey hold
      cases hkey : new.bind Row.basenameOf with
      | none =>
        rw [hkey] at hnew
        simp only [mem_srem]
        exact ⟨fun h => ⟨h.resolve_right fun hid => (nomatch hnew hid),hout⟩,removals_srem hout⟩
      | some key =>
        refine ⟨fun h => ?_,removals_srem hout⟩
        simp only [mem_sadd,mem_srem]
        obtain h | hid := h
        · exact .inr ⟨h,hout⟩
        · rw [hkey] at hnew
          exact .inl ⟨(some.inj (hnew hid)).symm,hid⟩

theorem primary_exec (h : (r.exec id old new).Primary key' id') :
    (id' = id → new.bind Row.basenameOf = some key') ∧ (id' ≠ id → r.Primary key' id') := by
  obtain ⟨row,hrow,hkey⟩ := h
  rw [rows_exec,update_apply] at hrow
  constructor
  · intro hid
    rw [if_pos hid] at hrow
    rw [hrow]
    exact hkey
  · intro hid
    rw [if_neg hid] at hrow
    exact ⟨row,hrow,hkey⟩

theorem Redis.BasenameMirror.exec (h : r.BasenameMirror) :
    (r.exec id old new).BasenameMirror := by
  intro key' id' hprimary
  obtain ⟨hself,hother⟩ := primary_exec hprimary
  have hkeeps := (indexBasename_keeps ((r.setRow id new).indexStatus id old new) old hself).1
  apply hkeeps
  rw [basename_indexStatus]
  by_cases hid : id' = id
  · exact .inr hid
  · exact .inl (h key' id' (hother hid))

theorem removals_exec (h : (r.exec id old new).Primary key' id') :
    (r.exec id old new).removals key' id' = r.removals key' id' := by
  have hkeeps := (indexBasename_keeps ((r.setRow id new).indexStatus id old new) old
    (primary_exec h).1).2
  rw [Redis.exec,hkeeps,removals_indexStatus]
  rfl

def Client.Watches (r : Redis) : Client → Prop
  | .watching id _ mark => mark ≤ r.writes id
  | .mutating id _ mark old => mark ≤ r.writes id ∧ (r.writes id = mark → r.rows id = old)
  | _ => True

theorem Client.Watches.exec (h : client.Watches r) : client.Watches (r.exec id old new) := by
  have hle : ∀ id', r.writes id' ≤ (r.exec id old new).writes id' := by
    intro id'
    rw [writes_exec,update_apply]
    split
    · rename_i hid
      rw [hid]
      exact Nat.le_succ _
    · exact Nat.le_refl _
  cases client with
  | watching id' op mark => exact Nat.le_trans h (hle id')
  | mutating id' op mark old' =>
    refine ⟨Nat.le_trans h.1 (hle id'),fun hmark => ?_⟩
    have hmarkle := h.1
    rw [writes_exec,update_apply] at hmark
    by_cases hid : id' = id
    · rw [if_pos hid] at hmark
      subst hid
      omega
    · rw [if_neg hid] at hmark
      rw [rows_exec,update_of_ne hid]
      exact h.2 hmark
  | _ => trivial

theorem Client.Watches.srem (h : client.Watches r) : client.Watches (r.srem key id) := by
  cases client <;> exact h

/-- What holds in every state: the watches, and the sorted sets. -/
structure World.Sound (w : World) : Prop where
  watches : ∀ c, (w.clients c).Watches w.redis
  statuses : w.redis.StatusMirror

theorem watches_setClient (h : ∀ c, (w.clients c).Watches r) (hclient : client.Watches r) :
    ∀ c', ((w.setClient c client).clients c').Watches r := by
  intro c'
  simp only [World.setClient,update_apply]
  split
  · exact hclient
  · exact h c'

theorem World.Sound.step (h : w.Sound) (hstep : Step w e w') : w'.Sound := by
  cases hstep with
  | watch id op hclient =>
    exact ⟨watches_setClient h.watches (Nat.le_refl _),h.statuses⟩
  | get hclient =>
    have hw := h.watches
    rename_i c id op mark
    have hmark := hw c
    rw [hclient] at hmark
    exact ⟨watches_setClient hw ⟨hmark,fun _ => rfl⟩,h.statuses⟩
  | exec hclient hwatch hmutate =>
    rename_i c id op mark old new
    have hmutating := h.watches c
    rw [hclient] at hmutating
    refine ⟨watches_setClient (fun c' => ?_) trivial,h.statuses.exec (hmutating.2 hwatch)⟩
    exact (h.watches c').exec
  | give => exact ⟨watches_setClient h.watches trivial,h.statuses⟩
  | resolve canonical limit hclient =>
    exact ⟨watches_setClient h.watches trivial,h.statuses⟩
  | sscan batch finished hclient hpending hmore hbatch hfull =>
    exact ⟨watches_setClient h.watches trivial,h.statuses⟩
  | checkPrimary hclient hpending hrow hprimary =>
    refine ⟨watches_setClient h.watches ?_,h.statuses⟩
    unfold Scan.found
    simp only
    split <;> trivial
  | checkStale hclient hpending hstale =>
    exact ⟨watches_setClient h.watches trivial,h.statuses⟩
  | heal hclient =>
    refine ⟨watches_setClient (fun c' => ?_) trivial,h.statuses⟩
    exact (h.watches c').srem
  | done hclient hpending hfinished =>
    exact ⟨watches_setClient h.watches trivial,h.statuses⟩

/-- A step whose removals are of documents that are no primaries. -/
def StaleStep (w : World) (e : Event) (w' : World) : Prop := Step w e w' ∧ HealsStale w e

theorem Step.redis (h : Step w e w') :
    w'.redis = w.redis ∨
      (∃ c id old new, e = .exec c ∧ w'.redis = w.redis.exec id old new) ∨
      ∃ c canonical id, e = .heal c canonical id ∧ w'.redis = w.redis.srem canonical id := by
  cases h with
  | exec hclient hwatch hmutate => exact .inr (.inl ⟨_,_,_,_,rfl,rfl⟩)
  | heal hclient => exact .inr (.inr ⟨_,_,_,rfl,rfl⟩)
  | _ => exact .inl rfl

theorem StaleStep.mirrors (h : StaleStep w e w') (hmirror : w.redis.BasenameMirror) :
    w'.redis.BasenameMirror := by
  obtain ⟨hstep,hstale⟩ := h
  obtain hsame | ⟨c,id,old,new,-,hexec⟩ | ⟨c,canonical,id,rfl,hheal⟩ := hstep.redis
  · rw [hsame]
    exact hmirror
  · rw [hexec]
    exact hmirror.exec
  · rw [hheal]
    intro key id' hprimary
    refine mem_srem.mpr ⟨hmirror key id' hprimary,?_⟩
    rintro ⟨rfl,rfl⟩
    exact hstale hprimary

theorem StaleStep.removals (h : StaleStep w e w') (hprimary : w'.redis.Primary key id) :
    w'.redis.removals key id = w.redis.removals key id := by
  obtain ⟨hstep,hstale⟩ := h
  obtain hsame | ⟨c,id',old,new,-,hexec⟩ | ⟨c,canonical,id',rfl,hheal⟩ := hstep.redis
  · rw [hsame]
  · rw [hexec] at hprimary ⊢
    exact removals_exec hprimary
  · rw [hheal] at hprimary ⊢
    apply removals_srem
    rintro ⟨rfl,rfl⟩
    exact hstale hprimary

/-- A scan has found the document or is going to. -/
structure Scan.Finds (s : Scan) (r : Redis) (id : DocId) : Prop where
  started : id ∈ s.start
  unremoved : r.removals s.canonical id = s.marks id
  kept : id ∈ s.returned → id ∈ s.pending ∨ id ∈ s.candidates.map Prod.fst
  complete : s.finished = true → id ∈ s.returned

def Scan.Over (s : Scan) : Prop :=
  s.finished = true ∧ s.pending = [] ∨ ∃ limit, s.limit = some limit ∧ limit ≤ s.candidates.length

def Client.Resolves (canonical : String) (limit : Option Nat) (P : Scan → Prop) : Client → Prop
  | .scanning s | .healing s _ => s.canonical = canonical ∧ s.limit = limit ∧ P s
  | .resolved s => s.canonical = canonical ∧ s.limit = limit ∧ P s ∧ s.Over
  | _ => False

variable {canonical : String}

theorem resolves_step {limit : Option Nat} {P Q : Scan → Prop}
    (hstep : Step w e w') (hgive : e ≠ .give c)
    (h : (w.clients c).Resolves canonical limit P)
    (hsscan : ∀ s batch finished, s.canonical = canonical → P s → s.pending = [] →
      (finished = true → ∀ id ∈ s.start, w.redis.removals s.canonical id = s.marks id →
        id ∈ s.returned ++ batch) →
      P { s with returned := s.returned ++ batch, pending := batch, finished := finished })
    (hfound : ∀ s id pending row, s.canonical = canonical → P s → s.pending = id :: pending →
      w.redis.rows id = some row → row.basenameOf = some canonical →
      P { s with pending := pending, candidates := s.candidates ++ [(id, row)] })
    (hstale : ∀ s id pending, s.canonical = canonical → P s → s.pending = id :: pending →
      ¬ w.redis.Primary canonical id → P { s with pending := pending })
    (himp : ∀ s, s.canonical = canonical → P s → Q s) :
    (w'.clients c).Resolves canonical limit Q := by
  have hmono : ∀ client : Client, client.Resolves canonical limit P →
      client.Resolves canonical limit Q := by
    intro client hc
    cases client with
    | scanning s => exact ⟨hc.1,hc.2.1,himp s hc.1 hc.2.2⟩
    | healing s id => exact ⟨hc.1,hc.2.1,himp s hc.1 hc.2.2⟩
    | resolved s => exact ⟨hc.1,hc.2.1,himp s hc.1 hc.2.2.1,hc.2.2.2⟩
    | _ => exact hc
  have hset : ∀ (w₀ : World) c₂ client, w₀.clients = w.clients →
      (c = c₂ → client.Resolves canonical limit Q) →
      ((w₀.setClient c₂ client).clients c).Resolves canonical limit Q := by
    intro w₀ c₂ client hsame hself
    simp only [World.setClient,update_apply,hsame]
    split
    · rename_i hc
      exact hself hc
    · exact hmono _ h
  have hbusy : ∀ c₂ client, w.clients c₂ = client → c = c₂ →
      client.Resolves canonical limit P := by
    rintro c₂ client rfl rfl
    exact h
  cases hstep with
  | watch id op hclient => exact hset _ _ _ rfl fun hc => (hbusy _ _ hclient hc).elim
  | get hclient => exact hset _ _ _ rfl fun hc => (hbusy _ _ hclient hc).elim
  | exec hclient hwatch hmutate => exact hset _ _ _ rfl fun hc => (hbusy _ _ hclient hc).elim
  | give =>
    apply hset _ _ _ rfl
    rintro rfl
    exact absurd rfl hgive
  | resolve key limit' hclient => exact hset _ _ _ rfl fun hc => (hbusy _ _ hclient hc).elim
  | sscan batch finished hclient hpending hmore hbatch hfull =>
    refine hset _ _ _ rfl fun hc => ?_
    obtain ⟨hcanonical,hlimit,hP⟩ := hbusy _ _ hclient hc
    exact ⟨hcanonical,hlimit,himp _ hcanonical (hsscan _ _ _ hcanonical hP hpending hfull)⟩
  | checkPrimary hclient hpending hrow hprimary =>
    refine hset _ _ _ rfl fun hc => ?_
    obtain ⟨hcanonical,hlimit,hP⟩ := hbusy _ _ hclient hc
    have hP' := hfound _ _ _ _ hcanonical hP hpending hrow (hcanonical ▸ hprimary)
    have hQ := himp _ (by exact hcanonical) hP'
    unfold Scan.found
    simp only
    split
    · rename_i hover
      obtain ⟨limit',hlimit',hle⟩ := (any_eq_true _ _).mp hover
      exact ⟨hcanonical,hlimit,hQ,.inr ⟨limit',hlimit',by simpa using hle⟩⟩
    · exact ⟨hcanonical,hlimit,hQ⟩
  | checkStale hclient hpending hstale' =>
    refine hset _ _ _ rfl fun hc => ?_
    obtain ⟨hcanonical,hlimit,hP⟩ := hbusy _ _ hclient hc
    refine ⟨hcanonical,hlimit,himp _ hcanonical (hstale _ _ _ hcanonical hP hpending ?_)⟩
    rw [← hcanonical]
    exact hstale'
  | heal hclient =>
    refine hset _ _ _ rfl fun hc => ?_
    obtain ⟨hcanonical,hlimit,hP⟩ := hbusy _ _ hclient hc
    exact ⟨hcanonical,hlimit,himp _ hcanonical hP⟩
  | done hclient hpending hfinished =>
    refine hset _ _ _ rfl fun hc => ?_
    obtain ⟨hcanonical,hlimit,hP⟩ := hbusy _ _ hclient hc
    exact ⟨hcanonical,hlimit,himp _ hcanonical hP,.inl ⟨hfinished,hpending⟩⟩

theorem Scan.Finds.step (h : (w.clients c).Resolves canonical (some 2)
      (Scan.Finds · w.redis id)) (hstep : StaleStep w e w') (hgive : e ≠ .give c)
    (hbefore : w.redis.Primary canonical id) (hafter : w'.redis.Primary canonical id) :
    (w'.clients c).Resolves canonical (some 2) (Scan.Finds · w'.redis id) := by
  apply resolves_step hstep.1 hgive h
  · intro s batch finished hcanonical hs hpending hfull
    refine ⟨hs.started,hs.unremoved,fun hmem => ?_,fun hfinished => ?_⟩
    · obtain hold | hnew := mem_append.mp hmem
      · have hkept := hs.kept hold
        rw [hpending] at hkept
        exact .inr (hkept.resolve_left not_mem_nil)
      · exact .inl hnew
    · exact hfull hfinished id hs.started hs.unremoved
  · intro s id' pending row hcanonical hs hpending hrow hprimary
    refine ⟨hs.started,hs.unremoved,fun hmem => ?_,hs.complete⟩
    have hkept := hs.kept hmem
    rw [hpending,mem_cons] at hkept
    simp only [map_append,mem_append,map_cons,map_nil,mem_singleton]
    tauto
  · intro s id' pending hcanonical hs hpending hstale
    refine ⟨hs.started,hs.unremoved,fun hmem => ?_,hs.complete⟩
    have hkept := hs.kept hmem
    rw [hpending,mem_cons] at hkept
    have hne : id ≠ id' := by
      rintro rfl
      exact hstale hbefore
    exact hkept.imp_left fun hp => hp.resolve_left hne
  · rintro s rfl hs
    exact ⟨hs.started,(hstep.removals hafter).trans hs.unremoved,hs.kept,hs.complete⟩

theorem Scan.Finds.run
    (hrun : Run (fun w e w' => StaleStep w e w' ∧ w'.redis.Primary canonical id) w es w')
    (hgive : .give c ∉ es) (hprimary : w.redis.Primary canonical id)
    (h : (w.clients c).Resolves canonical (some 2) (Scan.Finds · w.redis id)) :
    (w'.clients c).Resolves canonical (some 2) (Scan.Finds · w'.redis id) := by
  induction hrun with
  | nil => exact h
  | cons hstep _ ih =>
    rw [mem_cons,not_or] at hgive
    apply ih hgive.2 hstep.2
    exact Scan.Finds.step h hstep.1 (Ne.symm hgive.1) hprimary hstep.2

theorem Scan.Finds.resolution (h : s.Finds r id) (hover : s.Over) (hlimit : s.limit = some 2) :
    s.resolution ≠ .absent ∧ ∀ id', s.resolution = .unique id' → id' = id := by
  have hfew : s.candidates.length < 2 → id ∈ s.candidates.map Prod.fst := by
    intro hlt
    obtain ⟨hfinished,hpending⟩ | ⟨limit,hlim,hle⟩ := hover
    · have hkept := h.kept (h.complete hfinished)
      rw [hpending] at hkept
      exact hkept.resolve_left not_mem_nil
    · rw [hlimit] at hlim
      obtain rfl := some.inj hlim
      omega
  unfold Scan.resolution
  match hc : s.candidates with
  | [] =>
    rw [hc] at hfew
    exact absurd (hfew (by decide)) not_mem_nil
  | [candidate] =>
    rw [hc] at hfew
    refine ⟨Resolution.noConfusion,fun id' hid => ?_⟩
    have hmem : id = candidate.1 := by simpa using hfew Nat.one_lt_two
    rw [← Resolution.unique.inj hid,hmem]
  | _ :: _ :: _ => exact ⟨Resolution.noConfusion,fun id' hid => Resolution.noConfusion hid⟩

/-- Where no write commits, the candidates are the rows. -/
def Scan.Reads (s : Scan) (r : Redis) : Prop :=
  ∀ candidate ∈ s.candidates,
    r.rows candidate.1 = some candidate.2 ∧ candidate.2.basenameOf = some s.canonical

theorem primary_congr {r' : Redis} (hrows : r'.rows = r.rows)
    (h : r.Primary canonical id) : r'.Primary canonical id := by
  unfold Redis.Primary
  rw [hrows]
  exact h

theorem rows_of_quiet (hstep : Step w e w') (hquiet : e.isExec = false) :
    w'.redis.rows = w.redis.rows := by
  obtain hsame | ⟨c,id,old,new,rfl,-⟩ | ⟨c,canonical,id,-,hheal⟩ := hstep.redis
  · rw [hsame]
  · cases hquiet
  · rw [hheal]
    rfl

theorem Scan.Reads.run {limit : Option Nat} (hrun : Run Step w es w')
    (hgive : .give c ∉ es) (hquiet : ∀ e ∈ es, e.isExec = false)
    (h : (w.clients c).Resolves canonical limit (Scan.Reads · w.redis)) :
    (w'.clients c).Resolves canonical limit (Scan.Reads · w'.redis) ∧
      w'.redis.rows = w.redis.rows := by
  induction hrun with
  | nil => exact ⟨h,rfl⟩
  | cons hstep _ ih =>
    rw [mem_cons,not_or] at hgive
    have hrows := rows_of_quiet hstep (hquiet _ mem_cons_self)
    have hnext := ih hgive.2 (fun e he => hquiet e (mem_cons_of_mem _ he)) ?_
    · exact ⟨hnext.1,hnext.2.trans hrows⟩
    apply resolves_step hstep (Ne.symm hgive.1) h
    · intro s batch finished hcanonical hs hpending hfull
      exact hs
    · intro s id pending row hcanonical hs hpending hrow hprimary candidate hmem
      obtain hold | hnew := mem_append.mp hmem
      · exact hs candidate hold
      · obtain rfl := mem_singleton.mp hnew
        exact ⟨hrow,hcanonical ▸ hprimary⟩
    · intro s id pending hcanonical hs hpending hstale
      exact hs
    · intro s hcanonical hs candidate hmem
      rw [hrows]
      exact hs candidate hmem

theorem quiet_run (hrun : Run StaleStep w es w')
    (hquiet : ∀ e ∈ es, e.isExec = false) (hprimary : w.redis.Primary canonical id) :
    Run (fun w e w' => StaleStep w e w' ∧ w'.redis.Primary canonical id) w es w' := by
  induction hrun with
  | nil => exact .nil _
  | cons hstep _ ih =>
    have hrows := rows_of_quiet hstep.1 (hquiet _ mem_cons_self)
    have hnext := primary_congr hrows hprimary
    exact .cons ⟨hstep,hnext⟩ (ih (fun e he => hquiet e (mem_cons_of_mem _ he)) hnext)

/-- The rows and the sidecar agree and no client is at work. -/
structure World.Consistent (w : World) : Prop where
  idle : ∀ c, w.clients c = .idle
  statuses : w.redis.StatusMirror
  basenames : w.redis.BasenameMirror

theorem run_sound {w₀ : World} (h : w₀.Consistent) (hrun : Run Step w₀ es w) : w.Sound := by
  refine hrun.preserves (I := World.Sound) (fun _ _ _ hstep hs => hs.step hstep) ?_
  refine ⟨fun c => ?_,h.statuses⟩
  rw [h.idle c]
  trivial

theorem run_basenames {w₀ : World} (h : w₀.Consistent) (hrun : Run StaleStep w₀ es w) :
    w.redis.BasenameMirror :=
  hrun.preserves (I := fun w => w.redis.BasenameMirror) (fun _ _ _ hstep hs => hstep.mirrors hs)
    h.basenames

/-- What the sorted sets say of the rows. -/
structure Redis.StatusesListed (r : Redis) : Prop where
  listed : ∀ id row, r.rows id = some row → row.statusValue ≠ "" →
    row.member id ∈ r.zset row.statusValue
  once : ∀ id row status member, r.rows id = some row → member ∈ r.zset status →
    (splitMember member).2 = id → status = row.statusValue ∧ member = row.member id
  rowed : ∀ status member, member ∈ r.zset status →
    ∃ row, r.rows (splitMember member).2 = some row

theorem Redis.StatusMirror.listed (h : r.StatusMirror) : r.StatusesListed where
  listed id row hrow hne := (h _ _).mpr ⟨hne,id,row,hrow,rfl,rfl⟩
  once id row status member hrow hmem hid := by
    obtain ⟨-,id',row',hrow',hstatus,hm⟩ := (h _ _).mp hmem
    rw [hm,Row.split_member] at hid
    subst hid
    rw [hrow] at hrow'
    obtain rfl := some.inj hrow'
    exact ⟨hstatus.symm,hm⟩
  rowed status member hmem := by
    obtain ⟨-,id,row,hrow,-,hm⟩ := (h _ _).mp hmem
    rw [hm,Row.split_member]
    exact ⟨row,hrow⟩

/-- The sidecar mirrors the rows in every run. A primary stays in the set of its source, and a
resolution misses none, in every run that removes no member of a document which is a primary of the
source again. -/
theorem sidecar_mirrors_rows {w₀ : World} (h₀ : w₀.Consistent) :
    (∀ es w, Run Step w₀ es w → w.redis.StatusesListed) ∧
      ∀ es w, Run StaleStep w₀ es w →
        (∀ canonical id, w.redis.Primary canonical id → id ∈ w.redis.basename canonical) ∧
        ∀ c canonical w₁ es₁ w₂ s, Step w (.resolve c canonical (some 2)) w₁ →
          Run StaleStep w₁ es₁ w₂ → .give c ∉ es₁ → w₂.clients c = .resolved s →
            (∀ id, w₁.redis.Primary canonical id →
              Run (fun w e w' => StaleStep w e w' ∧ w'.redis.Primary canonical id) w₁ es₁ w₂ →
                s.resolution ≠ .absent ∧ ∀ id', s.resolution = .unique id' → id' = id) ∧
            ((∀ e ∈ es₁, e.isExec = false) →
              (s.resolution = .absent → ∀ id, ¬ w₂.redis.Primary canonical id) ∧
              ∀ id', s.resolution = .unique id' →
                ∀ id, w₂.redis.Primary canonical id ↔ id = id') := by
  refine ⟨fun es w hrun => (run_sound h₀ hrun).statuses.listed,
    fun es w hrun => ⟨run_basenames h₀ hrun,?_⟩⟩
  intro c canonical w₁ es₁ w₂ s hresolve hrun₁ hgive hresolved
  have hmirror := run_basenames h₀ hrun
  cases hresolve with
  | resolve _ _ hclient =>
    have hself : ∀ client : Client, (w.setClient c client).clients c = client :=
      fun client => update_self _ _ _
    have hfinds : ∀ id, w.redis.Primary canonical id →
        Run (fun w e w' => StaleStep w e w' ∧ w'.redis.Primary canonical id)
          (w.setClient c (.scanning (.begin canonical (some 2) w.redis))) es₁ w₂ →
          s.resolution ≠ .absent ∧ ∀ id', s.resolution = .unique id' → id' = id := by
      intro id hprimary hthrough
      have hstart : Client.Resolves canonical (some 2) (Scan.Finds · w.redis id)
          (.scanning (.begin canonical (some 2) w.redis)) :=
        ⟨rfl,rfl,hmirror canonical id hprimary,rfl,fun hmem => absurd hmem not_mem_nil,
          fun hfin => absurd hfin Bool.false_ne_true⟩
      have hend := Scan.Finds.run hthrough hgive hprimary (by rw [hself]; exact hstart)
      rw [hresolved] at hend
      exact hend.2.2.1.resolution hend.2.2.2 hend.2.1
    refine ⟨hfinds,fun hquiet => ?_⟩
    have hstart : Client.Resolves canonical (some 2) (Scan.Reads · w.redis)
        (.scanning (.begin canonical (some 2) w.redis)) :=
      ⟨rfl,rfl,fun candidate hmem => absurd hmem not_mem_nil⟩
    have hsteps := hrun₁.mono fun _ _ _ hstep => hstep.1
    obtain ⟨hreads,hrows⟩ := Scan.Reads.run hsteps hgive hquiet (by rw [hself]; exact hstart)
    rw [hresolved] at hreads
    have hback : ∀ id, w₂.redis.Primary canonical id → w.redis.Primary canonical id :=
      fun id hprimary => primary_congr hrows.symm hprimary
    constructor
    · intro habsent id hprimary
      exact (hfinds id (hback id hprimary) (quiet_run hrun₁ hquiet (hback id hprimary))).1 habsent
    · intro id' hunique id
      constructor
      · intro hprimary
        exact ((hfinds id (hback id hprimary)
          (quiet_run hrun₁ hquiet (hback id hprimary))).2 id' hunique).symm
      · rintro rfl
        unfold Scan.resolution at hunique
        split at hunique
        · cases hunique
        · rename_i candidate hcandidates
          have hread := hreads.2.2.1 candidate (by rw [hcandidates]; exact mem_singleton_self _)
          rw [← Resolution.unique.inj hunique]
          exact ⟨candidate.2,hread.1,hreads.1 ▸ hread.2⟩
        · cases hunique

end

private def primaryRow : Row := ⟨none, none, some "a", false⟩

private def oneRow : World where
  redis :=
    { rows := fun id => if id = "d" then some primaryRow else none
      writes := fun _ => 0
      zset := fun _ => ∅
      basename := fun key => if key = "a" then {"d"} else ∅
      removals := fun _ _ => 0 }
  clients := fun _ => .idle

private theorem oneRow_consistent : oneRow.Consistent where
  idle c := rfl
  statuses status member := by
    constructor
    · intro hmem
      exact absurd hmem (Finset.notMem_empty _)
    · rintro ⟨hne,id,row,hrow,hstatus,-⟩
      simp only [oneRow] at hrow
      split at hrow
      · cases hrow
        exact absurd hstatus.symm hne
      · cases hrow
  basenames canonical id := by
    rintro ⟨row,hrow,hkey⟩
    simp only [oneRow] at hrow ⊢
    split at hrow
    · rename_i hid
      obtain rfl := some.inj hrow
      have hcanonical : some "a" = some canonical := hkey
      obtain rfl := some.inj hcanonical
      simp [hid]
    · cases hrow

/-- A resolver reads the row of a member while the document is deleted, the document is enqueued
again, and then the resolver removes its member: the source of a primary has no candidate. -/
theorem primary_lost : ∃ w₀ es w, w₀.Consistent ∧ Run Step w₀ es w ∧
    w.redis.Primary "a" "d" ∧ "d" ∉ w.redis.basename "a" := by
  refine ⟨oneRow,_,_,oneRow_consistent,
    .cons (.resolve (c := 0) "a" (some 2) rfl) (.cons (.sscan (c := 0) ["d"] true rfl rfl rfl ?_ ?_)
    (.cons (.watch (c := 1) "d" .delete rfl) (.cons (.get (c := 1) rfl)
    (.cons (.exec (c := 1) rfl rfl rfl)
    (.cons (.checkStale (c := 0) rfl rfl ?_)
    (.cons (.watch (c := 1) "d" (.upsert primaryRow) rfl) (.cons (.get (c := 1) rfl)
    (.cons (.exec (c := 1) rfl rfl rfl)
    (.cons (.heal (c := 0) rfl) (.nil _)))))))))),?_,?_⟩
  · intro id hid
    obtain rfl := mem_singleton.mp hid
    exact Finset.mem_singleton_self "d"
  · intro _ id hid _
    exact mem_singleton.mpr (Finset.mem_singleton.mp hid)
  · rintro ⟨row,hrow,-⟩
    cases hrow
  · exact ⟨primaryRow,rfl,rfl⟩
  · exact Finset.notMem_erase "d" _

/-- The guarantee where the document is enqueued anew and nothing is removed. -/
theorem sidecar_mirrors_rows_written : ∃ w,
    Run StaleStep oneRow [.watch 0 "e" (.upsert primaryRow), .get 0, .exec 0] w ∧
      "e" ∈ w.redis.basename "a" := by
  have hrun : ∃ w, Run StaleStep oneRow [.watch 0 "e" (.upsert primaryRow), .get 0, .exec 0] w ∧
      w.redis.Primary "a" "e" :=
    ⟨_,.cons ⟨.watch (c := 0) "e" (.upsert primaryRow) rfl,trivial⟩
      (.cons ⟨.get (c := 0) rfl,trivial⟩ (.cons ⟨.exec (c := 0) rfl rfl rfl,trivial⟩ (.nil _))),
      primaryRow,rfl,rfl⟩
  obtain ⟨w,hrun,hprimary⟩ := hrun
  exact ⟨w,hrun,((sidecar_mirrors_rows oneRow_consistent).2 _ w hrun).1 "a" "e" hprimary⟩

end LightRAG.RedisSidecar
