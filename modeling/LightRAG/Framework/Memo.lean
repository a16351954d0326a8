import LightRAG.Framework.Dict

/-!
# Memoised computations

A computation looks for its value in a table first and stores it there afterwards. Programs that
make such computations are transparent when computations that share a key agree.
-/

namespace LightRAG

/-- A computation whose value is looked up under a key before it is made. -/
structure Memo (κ τ β : Type) where
  key : κ
  compute : β
  read : τ → Option β
  write : β → Option τ

namespace Memo

variable {κ τ β ρ : Type} [DecidableEq κ]

def store (m : Memo κ τ β) (table : Dict κ τ) : Dict κ τ :=
  match m.write m.compute with
  | some text => table.set m.key text
  | none => table

def fetch (m : Memo κ τ β) (table : Dict κ τ) : β × Dict κ τ :=
  match (table.get m.key).bind m.read with
  | some value => (value, table)
  | none => (m.compute, m.store table)

/-- Of two computations with one key, each reads its own value in what the other stores. -/
def Compatible (Q : Memo κ τ β → Prop) : Prop :=
  ∀ m m', Q m → Q m' → m.key = m'.key → ∀ text, m.write m.compute = some text →
    ∀ value, m'.read text = some value → value = m'.compute

def Sound (Q : Memo κ τ β → Prop) (table : Dict κ τ) : Prop :=
  ∀ m, Q m → ∀ text, table.get m.key = some text →
    ∀ value, m.read text = some value → value = m.compute

variable {Q : Memo κ τ β → Prop} {m : Memo κ τ β} {table : Dict κ τ}

theorem sound_empty : Sound Q (Dict.empty : Dict κ τ) := by
  intro m _ text htext
  cases htext

theorem Sound.store (hcompatible : Compatible Q) (hsound : Sound Q table) (hm : Q m) :
    Sound Q (m.store table) := by
  intro m' hm' text htext value hvalue
  unfold Memo.store at htext
  split at htext
  · rename_i stored hstored
    rw [Dict.get_set] at htext
    split at htext
    · rename_i hkey
      obtain rfl := Option.some.inj htext
      exact hcompatible m m' hm hm' hkey.symm _ hstored value hvalue
    · exact hsound m' hm' text htext value hvalue
  · exact hsound m' hm' text htext value hvalue

theorem Sound.fetch (hcompatible : Compatible Q) (hsound : Sound Q table) (hm : Q m) :
    (m.fetch table).1 = m.compute ∧ Sound Q (m.fetch table).2 := by
  unfold Memo.fetch
  split
  · rename_i value hvalue
    obtain ⟨text,htext,hread⟩ := Option.bind_eq_some_iff.mp hvalue
    exact ⟨hsound m hm text htext value hread,hsound⟩
  · exact ⟨rfl,hsound.store hcompatible hm⟩

/-- A program that makes memoised computations one after the other. -/
inductive Program (κ τ β ρ : Type)
  | done (result : ρ)
  | ask (m : Memo κ τ β) (next : β → Program κ τ β ρ)

namespace Program

def run : Program κ τ β ρ → Dict κ τ → ρ × Dict κ τ
  | .done result, table => (result, table)
  | .ask m next, table => (next (m.fetch table).1).run (m.fetch table).2

omit [DecidableEq κ] in
def direct : Program κ τ β ρ → ρ
  | .done result => result
  | .ask m next => (next m.compute).direct

/-- The computations a run without a table makes. -/
def asked : Program κ τ β ρ → Memo κ τ β → Prop
  | .done _, _ => False
  | .ask m next, m' => m' = m ∨ (next m.compute).asked m'

theorem run_eq (hcompatible : Compatible Q) (p : Program κ τ β ρ) (hasked : ∀ m, p.asked m → Q m)
    (hsound : Sound Q table) : (p.run table).1 = p.direct ∧ Sound Q (p.run table).2 := by
  induction p generalizing table with
  | done result => exact ⟨rfl,hsound⟩
  | ask m next ih =>
    obtain ⟨hvalue,hnext⟩ := hsound.fetch hcompatible (hasked m (.inl rfl))
    rw [run,hvalue]
    exact ih m.compute (fun m' hm' => hasked m' (.inr hm')) hnext

def runAll : List (Program κ τ β ρ) → Dict κ τ → List ρ
  | [], _ => []
  | p :: ps, table => (p.run table).1 :: runAll ps (p.run table).2

theorem runAll_eq (hcompatible : Compatible Q) {ps : List (Program κ τ β ρ)}
    (hasked : ∀ p ∈ ps, ∀ m, p.asked m → Q m) (hsound : Sound Q table) :
    runAll ps table = ps.map direct := by
  induction ps generalizing table with
  | nil => rfl
  | cons p ps ih =>
    obtain ⟨hresult,hnext⟩ := run_eq hcompatible p (hasked p List.mem_cons_self) hsound
    rw [runAll,List.map_cons,hresult,ih (fun p' hp' => hasked p' (List.mem_cons_of_mem _ hp'))
      hnext]

end Program
end Memo
end LightRAG
