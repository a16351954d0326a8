import LightRAG.Framework.Text

/-!
# Sanitized texts

`sanitize_text_for_encoding`: a text without outer blanks and control characters, with its HTML
escapes resolved once.
-/

namespace LightRAG.Sanitize
open List Option

def isHexDigit (c : Char) : Bool :=
  Text.isDigit c || ('a' ≤ c && c ≤ 'f') || ('A' ≤ c && c ≤ 'F')

/-- `[^\t\n\f <&#;]`. -/
def isName (c : Char) : Bool :=
  ! (c.toNat = 9 || c.toNat = 10 || c.toNat = 12 || c = ' ' || c = '<' || c = '&' || c = '#' ||
    c = ';')

/-- `;?`. -/
def semicolon (cs : List Char) : List Char := if cs.head? = some ';' then [';'] else []

def hexCharref : List Char → Option (List Char)
  | [] => none
  | x :: cs =>
    let digits := cs.takeWhile isHexDigit
    if (x = 'x' ∨ x = 'X') ∧ digits ≠ [] then
      some ('#' :: x :: (digits ++ semicolon (cs.drop digits.length)))
    else none

def numberCharref (cs : List Char) : Option (List Char) :=
  let digits := cs.takeWhile Text.isDigit
  if digits ≠ [] then some ('#' :: (digits ++ semicolon (cs.drop digits.length)))
  else hexCharref cs

def namedCharref (cs : List Char) : Option (List Char) :=
  let name := (cs.takeWhile isName).take 32
  if name ≠ [] then some (name ++ semicolon (cs.drop name.length)) else none

def charref (cs : List Char) : Option (List Char) :=
  if cs.head? = some '#' then numberCharref cs.tail else namedCharref cs

/-- `_charref.sub`; the number is what is left of a reference. -/
def unescapeFrom (replaceCharref : List Char → List Char) : ℕ → List Char → List Char
  | _, [] => []
  | k + 1, _ :: cs => unescapeFrom replaceCharref k cs
  | 0, c :: cs =>
    if c = '&' then
      match charref cs with
      | some ref => replaceCharref ref ++ unescapeFrom replaceCharref ref.length cs
      | none => c :: unescapeFrom replaceCharref 0 cs
    else c :: unescapeFrom replaceCharref 0 cs

def unescape (replaceCharref : List Char → List Char) (text : String) : String :=
  String.ofList (unescapeFrom replaceCharref 0 text.toList)

/-- `_SURROGATE_PATTERN` and `_CONTROL_CHAR_PATTERN_ALL`. -/
def isRemoved (c : Char) : Bool :=
  let n := c.toNat
  n = 0xFFFE || n = 0xFFFF || n ≤ 8 || n = 0x0B || n = 0x0C || (0x0E ≤ n && n ≤ 0x1F) || n = 0x7F

def sanitizeTextForEncoding (replaceCharref : List Char → List Char) (text : String) : String :=
  Text.strip (String.ofList
    ((unescape replaceCharref (Text.strip text)).toList.filter fun c => ! isRemoved c))

section

variable {replaceCharref : List Char → List Char} {xs ys : List Char} {p : Char → Bool}

theorem takeWhile_stop (hp : p '<' = false) (xs ys : List Char) :
    (xs ++ '<' :: ys).takeWhile p = xs.takeWhile p := by
  induction xs with
  | nil => simp [hp]
  | cons x xs ih =>
    rw [cons_append,takeWhile_cons,takeWhile_cons,ih]

theorem semicolon_stop {n : ℕ} (hn : n ≤ xs.length) (ys : List Char) :
    semicolon ((xs ++ '<' :: ys).drop n) = semicolon (xs.drop n) := by
  rw [drop_append_of_le_length hn]
  cases xs.drop n with
  | nil => rfl
  | cons x xs => rfl

theorem length_takeWhile_le (p : Char → Bool) (xs : List Char) :
    (xs.takeWhile p).length ≤ xs.length := (List.takeWhile_prefix p).length_le

theorem length_semicolon_le (xs : List Char) : (semicolon xs).length ≤ xs.length := by
  unfold semicolon
  split
  · cases xs with
    | nil => rename_i h; cases h
    | cons x xs => simp
  · exact Nat.zero_le _

theorem length_run_le (p : Char → Bool) (xs : List Char) :
    (xs.takeWhile p ++ semicolon (xs.drop (xs.takeWhile p).length)).length ≤ xs.length := by
  have hrun := length_takeWhile_le p xs
  have hsemi := length_semicolon_le (xs.drop (xs.takeWhile p).length)
  rw [length_drop] at hsemi
  rw [length_append]
  omega

theorem hexCharref_stop (xs ys : List Char) : hexCharref (xs ++ '<' :: ys) = hexCharref xs := by
  cases xs with
  | nil => rfl
  | cons x xs =>
    rw [cons_append,hexCharref,hexCharref,takeWhile_stop (by decide),
      semicolon_stop (length_takeWhile_le _ _)]

theorem numberCharref_stop (xs ys : List Char) :
    numberCharref (xs ++ '<' :: ys) = numberCharref xs := by
  rw [numberCharref,numberCharref,takeWhile_stop (by decide),
    semicolon_stop (length_takeWhile_le _ _),hexCharref_stop]

theorem namedCharref_stop (xs ys : List Char) :
    namedCharref (xs ++ '<' :: ys) = namedCharref xs := by
  have hlength : ((xs.takeWhile isName).take 32).length ≤ xs.length := by
    have hrun := length_takeWhile_le isName xs
    rw [length_take]
    omega
  rw [namedCharref,namedCharref,takeWhile_stop (by decide),semicolon_stop hlength]

theorem charref_stop (xs ys : List Char) : charref (xs ++ '<' :: ys) = charref xs := by
  cases xs with
  | nil => rfl
  | cons c cs =>
    have hnamed := namedCharref_stop (c :: cs) ys
    rw [cons_append] at hnamed ⊢
    rw [charref,charref,List.head?_cons,tail_cons,tail_cons,numberCharref_stop,
      hnamed,List.head?_cons]

theorem length_hexCharref_le {ref : List Char} (h : hexCharref xs = some ref) :
    ref.length ≤ xs.length + 1 := by
  cases xs with
  | nil => cases h
  | cons x cs =>
    rw [hexCharref] at h
    split at h
    · obtain rfl := some.inj h
      have hrun := length_run_le isHexDigit cs
      simp only [length_cons]
      omega
    · cases h

theorem length_charref_le {ref : List Char} (h : charref xs = some ref) :
    ref.length ≤ xs.length := by
  unfold charref at h
  split at h
  · cases xs with
    | nil => cases ‹([] : List Char).head? = some '#'›
    | cons c cs =>
      unfold numberCharref at h
      dsimp only [tail_cons] at h
      split at h
      · obtain rfl := some.inj h
        have hrun := length_run_le Text.isDigit cs
        simp only [length_cons]
        omega
      · exact length_hexCharref_le h
  · unfold namedCharref at h
    dsimp only at h
    split at h
    · obtain rfl := some.inj h
      have hrun := length_takeWhile_le isName xs
      have hsemi := length_semicolon_le (xs.drop ((xs.takeWhile isName).take 32).length)
      simp only [length_append,length_drop,length_take] at hsemi ⊢
      omega
    · cases h

theorem unescapeFrom_stop {k : ℕ} (hk : k ≤ xs.length) (ys : List Char) :
    unescapeFrom replaceCharref k (xs ++ '<' :: ys) =
      unescapeFrom replaceCharref k xs ++ '<' :: unescapeFrom replaceCharref 0 ys := by
  induction xs generalizing k with
  | nil =>
    obtain rfl : k = 0 := Nat.le_zero.mp hk
    rfl
  | cons x xs ih =>
    rw [cons_append]
    cases k with
    | succ k =>
      exact ih (Nat.le_of_succ_le_succ hk)
    | zero =>
      rw [unescapeFrom,unescapeFrom,charref_stop]
      split
      · cases href : charref xs with
        | none =>
          simp only [cons_append]
          rw [ih (Nat.zero_le _)]
        | some ref =>
          simp only [append_assoc]
          rw [ih (length_charref_le href)]
      · rw [ih (Nat.zero_le _),cons_append]

end

end LightRAG.Sanitize
