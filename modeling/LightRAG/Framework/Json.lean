import Mathlib.Data.Rat.Defs
import Mathlib.Data.List.Basic

/-!
# JSON values

The values of a parsed text, with the fields of an object in order.
-/

namespace LightRAG

inductive Json
  | null
  | bool (b : Bool)
  | number (q : ℚ)
  | string (s : String)
  | array (xs : List Json)
  | object (fields : List (String × Json))

namespace Json

mutual

def decEq : (x y : Json) → Decidable (x = y)
  | .null, .null => isTrue rfl
  | .bool b, .bool b' => decidable_of_iff (b = b') ⟨congrArg bool, fun h => bool.inj h⟩
  | .number q, .number q' => decidable_of_iff (q = q') ⟨congrArg number, fun h => number.inj h⟩
  | .string s, .string s' => decidable_of_iff (s = s') ⟨congrArg string, fun h => string.inj h⟩
  | .array xs, .array ys =>
    match decEqs xs ys with
    | isTrue h => isTrue (congrArg array h)
    | isFalse h => isFalse fun heq => h (array.inj heq)
  | .object fs, .object gs =>
    match decEqFields fs gs with
    | isTrue h => isTrue (congrArg object h)
    | isFalse h => isFalse fun heq => h (object.inj heq)
  | .null, .bool _ | .null, .number _ | .null, .string _ | .null, .array _ | .null, .object _
  | .bool _, .null | .bool _, .number _ | .bool _, .string _ | .bool _, .array _
  | .bool _, .object _ | .number _, .null | .number _, .bool _ | .number _, .string _
  | .number _, .array _ | .number _, .object _ | .string _, .null | .string _, .bool _
  | .string _, .number _ | .string _, .array _ | .string _, .object _ | .array _, .null
  | .array _, .bool _ | .array _, .number _ | .array _, .string _ | .array _, .object _
  | .object _, .null | .object _, .bool _ | .object _, .number _ | .object _, .string _
  | .object _, .array _ => isFalse fun h => nomatch h

def decEqs : (xs ys : List Json) → Decidable (xs = ys)
  | [], [] => isTrue rfl
  | x :: xs, y :: ys =>
    match decEq x y, decEqs xs ys with
    | isTrue h, isTrue hs => isTrue (by rw [h, hs])
    | isFalse h, _ => isFalse fun heq => h (List.cons.inj heq).1
    | _, isFalse hs => isFalse fun heq => hs (List.cons.inj heq).2
  | [], _ :: _ | _ :: _, [] => isFalse fun h => nomatch h

def decEqFields : (fs gs : List (String × Json)) → Decidable (fs = gs)
  | [], [] => isTrue rfl
  | (k, x) :: fs, (l, y) :: gs =>
    match decEq x y, decEqFields fs gs with
    | isTrue h, isTrue hs =>
      decidable_of_iff (k = l) (by
        rw [h, hs]
        simp)
    | isFalse h, _ => isFalse fun heq => h (Prod.mk.inj (List.cons.inj heq).1).2
    | _, isFalse hs => isFalse fun heq => hs (List.cons.inj heq).2
  | [], _ :: _ | _ :: _, [] => isFalse fun h => nomatch h

end

instance : DecidableEq Json := decEq

def isObject : Json → Bool
  | .object _ => true
  | _ => false

/-- `value.get(name)` of an object. -/
def field (name : String) : Json → Option Json
  | .object fields => (fields.find? fun f => f.1 = name).map Prod.snd
  | _ => none

def truthy : Json → Bool
  | .null => false
  | .bool b => b
  | .number q => q ≠ 0
  | .string s => s ≠ ""
  | .array xs => ! xs.isEmpty
  | .object fields => ! fields.isEmpty

end Json
end LightRAG
