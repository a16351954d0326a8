import LightRAG.Framework.Dict
import LightRAG.Framework.Json

/-!
# Key-value namespaces in JSON files

All processes share the rows of a namespace. The file holds what the last flush found, and the flag
of a process tells it that there is something to flush.
-/

namespace LightRAG.JsonKv
open List

abbrev Row := Dict String Json

/-- A namespace, and `int` of a text. -/
structure Namespace where
  textChunks : Bool
  int : String → Option ℤ

namespace Namespace

variable (c : Namespace)

def normalizeKvCreateTime : Option Json → ℤ
  | some (.number q) => q.num.tdiv q.den
  | some (.string s) => (c.int s).getD 0
  | _ => 0

/-- A row as `upsert` stores it over an existing one. -/
def stamp (now : ℤ) (key : String) (existing : Option Row) (v : Row) : Row :=
  let v := if c.textChunks ∧ v.get "llm_cache_list" = none then
    v.set "llm_cache_list" (.array []) else v
  let v := match existing with
    | some row => (v.set "update_time" (.number now)).set "create_time"
      (.number (c.normalizeKvCreateTime (row.get "create_time")))
    | none => (v.set "create_time" (.number now)).set "update_time" (.number now)
  v.set "_id" (.string key)

end Namespace

structure Shared where
  data : Dict String Row
  file : Dict String Row
  /-- `storage_updated` of every process. -/
  flags : List Bool

/-- How a flush that has something to write ends: the write raises, or the file is there and the
flags are cleared, as far as that gets. -/
inductive Ending
  | unwritten
  | published (cleared : ℕ → Bool)

namespace Shared

variable (c : Namespace) (s : Shared)

/-- `set_all_update_flags`, as far as it gets. -/
def setUpdateFlags (reached : ℕ → Bool) : Shared :=
  { s with flags := s.flags.mapIdx fun n flag => flag || reached n }

def upsert (now : ℤ) (rows : Dict String Row) (reached : ℕ → Bool) : Shared :=
  if rows.entries = [] then s
  else { s with data := s.data.update (rows.entries.map fun e : String × Row =>
    (e.1, c.stamp now e.1 (s.data.get e.1) e.2)) }.setUpdateFlags reached

def delete (ids : List String) (reached : ℕ → Bool) : Shared :=
  let rest := { s with data := s.data.drop fun key => key ∈ ids }
  if ids.any fun id => (s.data.get id).isSome then rest.setUpdateFlags reached else rest

/-- The flush of process `n`, and whether it returns. -/
def indexDoneCallback (n : ℕ) (ending : Ending) : Shared × Bool :=
  if s.flags[n]? = some true then
    match ending with
    | .unwritten => (s, false)
    | .published cleared =>
      ({ s with file := s.data, flags := s.flags.mapIdx fun n flag => flag && !cleared n }, true)
  else (s, true)

def drop (n : ℕ) (ending : Ending) : Shared :=
  (({ s with data := .empty }.setUpdateFlags fun _ => true).indexDoneCallback n ending).1

end Shared

/-- What happens to a namespace: a process joins the others, uses it, or all of them end. -/
inductive Event
  | join
  | upsert (now : ℤ) (rows : Dict String Row) (reached : ℕ → Bool)
  | delete (ids : List String) (reached : ℕ → Bool)
  | drop (n : ℕ) (ending : Ending)
  | indexDoneCallback (n : ℕ) (ending : Ending)
  | restart

namespace Event

def perform (c : Namespace) (s : Shared) : Event → Shared
  | .join => { s with flags := s.flags ++ [false] }
  | .upsert now rows reached => s.upsert c now rows reached
  | .delete ids reached => s.delete ids reached
  | .drop n ending => s.drop n ending
  | .indexDoneCallback n ending => (s.indexDoneCallback n ending).1
  | .restart => ⟨s.file, s.file, []⟩

def Names (key : String) : Event → Prop
  | .upsert _ rows _ => key ∈ rows.keys
  | .delete ids _ => key ∈ ids
  | .drop _ _ => True
  | _ => False

end Event

section

variable {c : Namespace} {s t : Shared} {key : String} {row v : Row} {n : ℕ} {now : ℤ}
  {rows : Dict String Row} {reached : ℕ → Bool} {ending : Ending} {event : Event}
  {events : List Event}

/-- The row is in memory, and on disk unless process `n` is still to flush. -/
structure Owed (s : Shared) (n : ℕ) (key : String) (row : Row) : Prop where
  data : s.data.get key = some row
  file : s.flags[n]? = some true ∨ s.flags[n]? = some false ∧ s.file.get key = some row

structure Durable (s : Shared) (key : String) (row : Row) : Prop where
  data : s.data.get key = some row
  file : s.file.get key = some row

/-- What a step does to a row it does not name: it publishes the memory or only raises flags. -/
structure Keeps (s t : Shared) (key : String) : Prop where
  data : t.data.get key = s.data.get key
  file : t.file = s.data ∧ s.flags.length ≤ t.flags.length ∨
    t.file = s.file ∧ ∀ (n : ℕ) (flag : Bool), s.flags[n]? = some flag →
      t.flags[n]? = some flag ∨ t.flags[n]? = some true

theorem Keeps.setUpdateFlags {data : Dict String Row} (h : data.get key = s.data.get key) :
    Keeps s ({ s with data := data }.setUpdateFlags reached) key := by
  refine ⟨h,.inr ⟨rfl,?_⟩⟩
  intro n flag hflag
  cases hreached : reached n <;> simp [Shared.setUpdateFlags,hflag,hreached]

theorem Keeps.refl {data : Dict String Row} (h : data.get key = s.data.get key) :
    Keeps s { s with data := data } key := ⟨h,.inr ⟨rfl,fun _ _ => .inl⟩⟩

theorem get_upsert (h : rows.get key = some v) : (s.upsert c now rows reached).data.get key =
    some (c.stamp now key (s.data.get key) v) := by
  have hin := Dict.get_eq_some.mp h
  unfold Shared.upsert
  rw [if_neg (ne_nil_of_mem hin)]
  apply Dict.get_update_of_mem
  · simpa [Function.comp_def] using rows.nodup
  · exact mem_map.mpr ⟨(key,v),hin,rfl⟩

theorem keeps_perform (hnames : ¬ event.Names key) (hlives : event ≠ .restart) :
    Keeps s (event.perform c s) key := by
  cases event with
  | join =>
    refine ⟨rfl,.inr ⟨rfl,?_⟩⟩
    intro n flag hflag
    left
    rw [Event.perform,getElem?_append_left (List.getElem?_eq_some_iff.mp hflag).1,hflag]
  | upsert now rows reached =>
    simp only [Event.perform,Shared.upsert]
    split
    · exact .refl rfl
    · apply Keeps.setUpdateFlags
      exact Dict.get_update_of_not_mem (by simpa [Event.Names,Dict.keys] using hnames)
  | delete ids reached =>
    have hrest : (s.data.drop fun key => key ∈ ids).get key = s.data.get key := by
      rw [Dict.get_drop,if_neg (show key ∉ ids from hnames)]
    simp only [Event.perform,Shared.delete]
    split
    · exact .setUpdateFlags hrest
    · exact .refl hrest
  | drop n ending => exact absurd trivial hnames
  | indexDoneCallback n ending =>
    simp only [Event.perform,Shared.indexDoneCallback]
    split
    · cases ending with
      | unwritten => exact .refl rfl
      | published cleared => exact ⟨rfl,.inl ⟨rfl,by simp⟩⟩
    · exact .refl rfl
  | restart => exact absurd rfl hlives

theorem Owed.step (h : Owed s n key row) (hkeeps : Keeps s t key) : Owed t n key row := by
  refine ⟨hkeeps.data.trans h.data,?_⟩
  cases hkeeps.file with
  | inl hfile =>
    have hjoined : n < s.flags.length := by
      cases h.file with
      | inl hflag => exact (List.getElem?_eq_some_iff.mp hflag).1
      | inr hsaved => exact (List.getElem?_eq_some_iff.mp hsaved.1).1
    have hlt : n < t.flags.length := hjoined.trans_le hfile.2
    rw [hfile.1,List.getElem?_eq_getElem hlt,h.data]
    cases t.flags[n] <;> simp
  | inr hfile =>
    rw [hfile.1]
    cases h.file with
    | inl hflag => exact .inl (or_self_iff.mp (hfile.2 n true hflag))
    | inr hsaved => exact (hfile.2 n false hsaved.1).symm.imp_right fun hflag => ⟨hflag,hsaved.2⟩

theorem Durable.step (h : Durable s key row) (hkeeps : Keeps s t key) : Durable t key row := by
  refine ⟨hkeeps.data.trans h.data,?_⟩
  cases hkeeps.file with
  | inl hfile => exact hfile.1 ▸ h.data
  | inr hfile => exact hfile.1 ▸ h.file

/-- A flush of the process leaves nothing to do if it returns. -/
theorem Owed.durable (h : Owed s n key row) (hreturned : (s.indexDoneCallback n ending).2 = true) :
    Durable (s.indexDoneCallback n ending).1 key row := by
  unfold Shared.indexDoneCallback at hreturned ⊢
  cases h.file with
  | inl hflag =>
    rw [if_pos hflag] at hreturned ⊢
    cases ending with
    | unwritten => cases hreturned
    | published cleared => exact ⟨h.data,h.data⟩
  | inr hfile =>
    rw [if_neg (by simp [hfile.1])]
    exact ⟨h.data,hfile.2⟩

theorem Owed.run (h : Owed s n key row)
    (hevents : ∀ event ∈ events, ¬ event.Names key ∧ event ≠ .restart) :
    Owed (events.foldl (Event.perform c) s) n key row := by
  induction events generalizing s with
  | nil => exact h
  | cons event events ih =>
    rw [forall_mem_cons] at hevents
    exact ih (h.step (keeps_perform hevents.1.1 hevents.1.2)) hevents.2

theorem Durable.run (h : Durable s key row) (hevents : ∀ event ∈ events, ¬ event.Names key) :
    Durable (events.foldl (Event.perform c) s) key row := by
  induction events generalizing s with
  | nil => exact h
  | cons event events ih =>
    rw [forall_mem_cons] at hevents
    apply ih _ hevents.2
    cases event with
    | restart => exact ⟨h.file,h.file⟩
    | _ => exact h.step (keeps_perform hevents.1 (by simp))

end

end LightRAG.JsonKv
