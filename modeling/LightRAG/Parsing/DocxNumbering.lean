import LightRAG.Framework.Dict
import Mathlib.Data.Int.ConditionallyCompleteOrder
import Mathlib.Order.CompleteLattice.PiLex

/-!
# Numbers of the paragraphs of a docx file

A list that follows another one with the same level definitions goes on counting where that stopped.
-/

namespace LightRAG.DocxNumbering
open List

/-- The counters of a list, by level. -/
abbrev Counters := Dict ℤ ℤ

/-- What `numbering.xml` says; a level definition is its `start`. -/
structure Numbering where
  abstractNums : Dict String (Dict ℤ ℤ)
  numToAbstract : Dict String String
  startOverrides : Dict String (Dict ℤ ℤ)

structure State where
  counters : Dict String Counters
  lastNumId : Option String
  lastAbstractId : Option String

/-- The counters that the next paragraph of a list starts from. -/
def State.continued (s : State) (numId abstractId : String) : Counters :=
  let own := (s.counters.get numId).getD .empty
  match s.lastNumId with
  | some last =>
    if last ≠ numId ∧ s.lastAbstractId = some abstractId then (s.counters.get last).getD own else own
  | none => own

namespace Numbering

variable (d : Numbering)

def level (numId : String) (ilvl : ℤ) : Option (String × Dict ℤ ℤ × ℤ) := do
  let abstractId ← d.numToAbstract.get numId
  let levels ← d.abstractNums.get abstractId
  let start ← levels.get ilvl
  return (abstractId, levels, start)

def startOf (numId : String) (i start : ℤ) : ℤ :=
  ((d.startOverrides.get numId).bind fun overrides => overrides.get i).getD start

/-- A parent level without a counter gets one. -/
def addParent (numId : String) (levels : Dict ℤ ℤ) (c : Counters) (i : ℕ) : Counters :=
  match c.get i, levels.get i with
  | none, some start => c.set i (d.startOf numId i start)
  | _, _ => c

def count (numId : String) (levels : Dict ℤ ℤ) (ilvl start : ℤ) (c : Counters) : Counters :=
  let c := ((range ilvl.toNat).foldl (d.addParent numId levels) c).drop fun i => ilvl < i ∧ i < 10
  c.set ilvl (match c.get ilvl with
    | some n => n + 1
    | none => d.startOf numId ilvl start)

/-- `get_label` of a paragraph with its `numId` and `ilvl`, with the counters the label is made of. -/
def getLabel (s : State) : Option (String × ℤ) → State × Option Counters
  | none => (s, none)
  | some (numId, ilvl) =>
    match d.level numId ilvl with
    | none => ({ s with lastNumId := none, lastAbstractId := none }, none)
    | some (abstractId, levels, start) =>
      let c := d.count numId levels ilvl start (s.continued numId abstractId)
      (⟨s.counters.set numId c, some numId, some abstractId⟩, some c)

def labels (s : State) : List (Option (String × ℤ)) → List Counters
  | [] => []
  | p :: ps => (d.getLabel s p).2.toList ++ labels (d.getLabel s p).1 ps

end Numbering

/-- Counters in the order of reading; a missing one comes before all numbers. -/
def Counters.key (c : Counters) : Lex (ℤ → WithBot ℤ) :=
  toLex fun i => (c.get i).elim ⊥ fun n => (n : WithBot ℤ)

variable {d : Numbering} {s : State} {numId abstractId : String} {levels : Dict ℤ ℤ}
  {c c' : Counters} {i ilvl start : ℤ} {ps : List (Option (String × ℤ))}

theorem key_lt (heq : ∀ j < i, c.get j = c'.get j)
    (hlt : (c.get i).elim ⊥ (fun n => (n : WithBot ℤ)) < (c'.get i).elim ⊥ fun n => (n : WithBot ℤ)) :
    Counters.key c < Counters.key c' :=
  ⟨i,fun j hj => congrArg (fun o => o.elim ⊥ fun n : ℤ => (n : WithBot ℤ)) (heq j hj),hlt⟩

theorem key_le_addParent (n : ℕ) :
    Counters.key c ≤ Counters.key (d.addParent numId levels c n) := by
  unfold Numbering.addParent
  split
  · rename_i hnone _
    apply le_of_lt (key_lt (i := n) _ _)
    · intro j hj
      rw [Dict.get_set,if_neg hj.ne]
    · simp [Dict.get_set,hnone]
  · exact le_refl _

theorem key_lt_count : Counters.key c < Counters.key (d.count numId levels ilvl start c) := by
  have hparents (ns : List ℕ) :
      Counters.key c ≤ Counters.key (ns.foldl (d.addParent numId levels) c) := by
    induction ns generalizing c with
    | nil => exact le_refl _
    | cons n ns ih => exact (key_le_addParent n).trans ih
  apply (hparents (range ilvl.toNat)).trans_lt (key_lt (i := ilvl) _ _)
  · intro j hj
    simp only [Numbering.count]
    rw [Dict.get_set,if_neg hj.ne,Dict.get_drop,if_neg (by omega)]
  · simp only [Numbering.count]
    rw [Dict.get_set,if_pos rfl,Dict.get_drop,if_neg (by omega)]
    cases ((range ilvl.toNat).foldl (d.addParent numId levels) c).get ilvl with
    | none => simp
    | some n => exact WithBot.coe_lt_coe.mpr (Int.lt_succ n)

/-- The last paragraph had a number of the definition, and showed these counters. -/
def State.Shows (s : State) (abstractId : String) (c : Counters) : Prop :=
  s.lastAbstractId = some abstractId ∧ s.lastNumId.bind s.counters.get = some c

theorem State.Shows.continued (h : s.Shows abstractId c) : s.continued numId abstractId = c := by
  obtain ⟨habstract,hcounters⟩ := h
  obtain ⟨last,hlast,hcounters⟩ := Option.bind_eq_some_iff.mp hcounters
  by_cases hsame : last = numId <;> simp_all [State.continued]

theorem chain_labels (h : s.Shows abstractId c)
    (hps : ∀ p ∈ ps, ∀ r ∈ p, (d.level r.1 r.2).map Prod.fst = some abstractId) :
    ((c :: d.labels s ps).map Counters.key).IsChain (· < ·) := by
  induction ps generalizing s c with
  | nil => exact .singleton _
  | cons p ps ih =>
    rw [forall_mem_cons] at hps
    cases p with
    | none => exact ih h hps.2
    | some r =>
      obtain ⟨l,hl,rfl⟩ := Option.map_eq_some_iff.mp (hps.1 r rfl)
      simp only [Numbering.labels,Numbering.getLabel,hl,Option.toList_some,singleton_append,map_cons]
      rw [h.continued]
      refine isChain_cons_cons.mpr ⟨key_lt_count,ih ⟨rfl,?_⟩ hps.2⟩
      simp [Dict.get_set]

/-- As long as the paragraphs are numbered by one definition, through whichever lists, and nothing
interrupts them, every label shows later counters than those before it. -/
theorem labels_increase (d : Numbering) (s : State) (abstractId : String)
    {ps : List (Option (String × ℤ))}
    (hps : ∀ p ∈ ps, ∀ r ∈ p, (d.level r.1 r.2).map Prod.fst = some abstractId) :
    ((d.labels s ps).map Counters.key).Pairwise (· < ·) := by
  induction ps with
  | nil => exact .nil
  | cons p ps ih =>
    rw [forall_mem_cons] at hps
    cases p with
    | none => exact ih hps.2
    | some r =>
      obtain ⟨l,hl,rfl⟩ := Option.map_eq_some_iff.mp (hps.1 r rfl)
      simp only [Numbering.labels,Numbering.getLabel,hl,Option.toList_some,singleton_append]
      apply isChain_iff_pairwise.mp (chain_labels ⟨rfl,_⟩ hps.2)
      simp [Dict.get_set]

/-- Two lists of one definition, where the second one starts over. -/
def twoLists : Numbering where
  abstractNums := Dict.empty.set "0" ((Dict.empty.set 0 1).set 1 1)
  numToAbstract := (Dict.empty.set "1" "0").set "2" "0"
  startOverrides := Dict.empty.set "2" (Dict.empty.set 0 1)

theorem labels_increase_twoLists :
    ((twoLists.labels ⟨.empty, none, none⟩ [some ("1", 0), some ("2", 1), none, some ("2", 0)]).map
      Counters.key).Pairwise (· < ·) :=
  labels_increase twoLists _ "0" (by decide)

end LightRAG.DocxNumbering
