import LightRAG.Query.LlmCacheKeys

/-!
# The JSON text of keywords

`json.dumps` of the two lists of keywords, in ASCII, and the reading of objects of this shape.
-/

namespace LightRAG.LlmCache

open QueryPrompt List Option

/-- `\uXXXX`. -/
def unitEscape (n : ℕ) : List Char :=
  ['\\', 'u', hexDigit (n / 4096 % 16), hexDigit (n / 256 % 16), hexDigit (n / 16 % 16),
    hexDigit (n % 16)]

variable (c : Char)

def escapeAscii : List Char :=
  if c = '"' then ['\\', '"']
  else if c = '\\' then ['\\', '\\']
  else if c.toNat = 10 then ['\\', 'n']
  else if c.toNat = 13 then ['\\', 'r']
  else if c.toNat = 9 then ['\\', 't']
  else if c.toNat = 8 then ['\\', 'b']
  else if c.toNat = 12 then ['\\', 'f']
  else if 32 ≤ c.toNat ∧ c.toNat ≤ 126 then [c]
  else if c.toNat < 65536 then unitEscape c.toNat
  else unitEscape (55296 + (c.toNat - 65536) / 1024) ++
    unitEscape (56320 + (c.toNat - 65536) % 1024)

def hexValue : ℕ := if c.toNat < 58 then c.toNat - 48 else c.toNat - 87

def unitValue (a b c d : Char) : ℕ :=
  hexValue a * 4096 + hexValue b * 256 + hexValue c * 16 + hexValue d

def unescapeShort : Char :=
  if c = 'n' then Char.ofNat 10
  else if c = 'r' then Char.ofNat 13
  else if c = 't' then Char.ofNat 9
  else if c = 'b' then Char.ofNat 8
  else if c = 'f' then Char.ofNat 12
  else c

def readLow : List Char → Option (ℕ × List Char)
  | '\\' :: 'u' :: a :: b :: c :: d :: rest => some (unitValue a b c d, rest)
  | _ => none

def readEscape : List Char → Option (Char × List Char)
  | 'u' :: a :: b :: c :: d :: rest =>
    let unit := unitValue a b c d
    if 55296 ≤ unit ∧ unit < 56320 then
      (readLow rest).map fun low =>
        (Char.ofNat (65536 + (unit - 55296) * 1024 + (low.1 - 56320)), low.2)
    else some (Char.ofNat unit, rest)
  | c :: rest => some (unescapeShort c, rest)
  | [] => none

def readChar : List Char → Option (Char × List Char)
  | '\\' :: rest => readEscape rest
  | c :: rest => some (c, rest)
  | [] => none

theorem hexValue_hexDigit {n : ℕ} (h : n < 16) : hexValue (hexDigit n) = n := by
  have hall : ∀ k < 16, hexValue (hexDigit k) = k := by decide
  exact hall n h

theorem unitValue_unitEscape {n : ℕ} (h : n < 65536) :
    unitValue (hexDigit (n / 4096 % 16)) (hexDigit (n / 256 % 16)) (hexDigit (n / 16 % 16))
      (hexDigit (n % 16)) = n := by
  unfold unitValue
  rw [hexValue_hexDigit (by omega),hexValue_hexDigit (by omega),hexValue_hexDigit (by omega),
    hexValue_hexDigit (by omega)]
  omega

theorem eq_ofNat_of_toNat {c : Char} {n : ℕ} (h : c.toNat = n) : c = Char.ofNat n := by
  rw [← h,Char.ofNat_toNat]

theorem readChar_escapeAscii (rest : List Char) :
    readChar (escapeAscii c ++ rest) = some (c, rest) := by
  unfold escapeAscii
  split
  · rename_i h
    rw [h]
    rfl
  split
  · rename_i h
    rw [h]
    rfl
  rename_i hslash
  split
  · rename_i h
    rw [eq_ofNat_of_toNat h]
    rfl
  split
  · rename_i h
    rw [eq_ofNat_of_toNat h]
    rfl
  split
  · rename_i h
    rw [eq_ofNat_of_toNat h]
    rfl
  split
  · rename_i h
    rw [eq_ofNat_of_toNat h]
    rfl
  split
  · rename_i h
    rw [eq_ofNat_of_toNat h]
    rfl
  split
  · rw [singleton_append,readChar]
    exact fun hc => hslash hc
  split
  · rename_i hsmall
    have hvalid := c.valid
    simp only [unitEscape,cons_append,nil_append,readChar,readEscape]
    rw [unitValue_unitEscape hsmall,if_neg,Char.ofNat_toNat]
    rcases hvalid with h | h
    · have hn : c.toNat < 55296 := h
      omega
    · have hn : 57343 < c.toNat := h.1
      omega
  · have hmax : c.toNat < 1114112 := by
      rcases c.valid with h | h
      · have hn : c.toNat < 55296 := h
        omega
      · exact h.2
    simp only [unitEscape,cons_append,nil_append,readChar,readEscape,readLow]
    rw [unitValue_unitEscape (by omega),unitValue_unitEscape (by omega),if_pos (by omega)]
    simp only [map_some]
    have hvalue : 65536 + (55296 + (c.toNat - 65536) / 1024 - 55296) * 1024 +
        (56320 + (c.toNat - 65536) % 1024 - 56320) = c.toNat := by
      omega
    rw [hvalue,Char.ofNat_toNat]

theorem escapeAscii_ne : ∃ d ds, escapeAscii c = d :: ds ∧ d ≠ '"' := by
  unfold escapeAscii
  split
  · exact ⟨_,_,rfl,by decide⟩
  rename_i hquote
  split
  · exact ⟨_,_,rfl,by decide⟩
  split
  · exact ⟨_,_,rfl,by decide⟩
  split
  · exact ⟨_,_,rfl,by decide⟩
  split
  · exact ⟨_,_,rfl,by decide⟩
  split
  · exact ⟨_,_,rfl,by decide⟩
  split
  · exact ⟨_,_,rfl,by decide⟩
  split
  · exact ⟨c,[],rfl,hquote⟩
  split
  · exact ⟨'\\',_,rfl,by decide⟩
  · exact ⟨'\\',_,rfl,by decide⟩

def quoted (s : String) : List Char := '"' :: (s.toList.flatMap escapeAscii ++ ['"'])

/-- What stands before the closing quote; the number bounds the length. -/
def readText : ℕ → List Char → Option (List Char × List Char)
  | 0, _ => none
  | n + 1, cs =>
    if cs.head? = some '"' then some ([], cs.tail)
    else (readChar cs).bind fun c => (readText n c.2).map fun text => (c.1 :: text.1, text.2)

/-- The escapes of characters can be read back, and none begins like a closing quote. -/
structure ReadBack (escape : Char → List Char) : Prop where
  read : ∀ c rest, readChar (escape c ++ rest) = some (c, rest)
  head : ∀ c, ∃ d ds, escape c = d :: ds ∧ d ≠ '"'

namespace ReadBack

variable {escape : Char → List Char}

theorem readText (h : ReadBack escape) (cs rest : List Char) {n : ℕ} (hn : cs.length < n) :
    readText n (cs.flatMap escape ++ '"' :: rest) = some (cs, rest) := by
  induction cs generalizing n with
  | nil =>
    cases n with
    | zero => omega
    | succ n => rfl
  | cons c cs ih =>
    cases n with
    | zero => omega
    | succ n =>
      have hrest := ih (n := n) (by simp only [length_cons] at hn; omega)
      obtain ⟨d,ds,hescape,hne⟩ := h.head c
      have hhead : (escape c ++ (cs.flatMap escape ++ '"' :: rest)).head? ≠ some '"' := by
        rw [hescape]
        exact fun heq => hne (some.inj heq)
      rw [flatMap_cons,append_assoc,LlmCache.readText,if_neg hhead,h.read]
      simp only [bind_some]
      rw [hrest]
      rfl

theorem length_le (h : ReadBack escape) (cs : List Char) :
    cs.length ≤ (cs.flatMap escape).length := by
  induction cs with
  | nil => exact Nat.le_refl 0
  | cons c cs ih =>
    obtain ⟨d,ds,hescape,-⟩ := h.head c
    simp only [flatMap_cons,length_append,length_cons,hescape]
    omega

end ReadBack

def readString : List Char → Option (String × List Char)
  | '"' :: rest => (readText (rest.length + 1) rest).map fun text => (String.ofList text.1, text.2)
  | _ => none

theorem ReadBack.readString {escape : Char → List Char} (h : ReadBack escape) (s : String)
    (rest : List Char) :
    readString ('"' :: (s.toList.flatMap escape ++ '"' :: rest)) = some (s, rest) := by
  have hlength := h.length_le s.toList
  rw [LlmCache.readString,h.readText _ _ (by simp only [length_append]; omega)]
  simp

theorem readBack_escapeAscii : ReadBack escapeAscii := ⟨readChar_escapeAscii,escapeAscii_ne⟩

theorem readString_quoted (s : String) (rest : List Char) :
    readString (quoted s ++ rest) = some (s, rest) := by
  unfold quoted
  simp only [cons_append,append_assoc]
  exact readBack_escapeAscii.readString s rest

/-- What follows the opening bracket of a list of strings. -/
def dumpItems : List String → List Char
  | [] => [']']
  | [k] => quoted k ++ [']']
  | k :: ks => quoted k ++ ',' :: ' ' :: dumpItems ks

/-- At least one string, up to the closing bracket; the number bounds the length. -/
def readItems : ℕ → List Char → Option (List String × List Char)
  | 0, _ => none
  | n + 1, cs =>
    (readString cs).bind fun first =>
      match first.2 with
      | ']' :: rest => some ([first.1], rest)
      | ',' :: ' ' :: rest => (readItems n rest).map fun items => (first.1 :: items.1, items.2)
      | _ => none

theorem readItems_dumpItems (k : String) (ks : List String) (rest : List Char) {n : ℕ}
    (hn : ks.length < n) :
    readItems n (dumpItems (k :: ks) ++ rest) = some (k :: ks, rest) := by
  induction ks generalizing k n with
  | nil =>
    cases n with
    | zero => omega
    | succ n =>
      rw [dumpItems,append_assoc,readItems,readString_quoted]
      rfl
  | cons k' ks ih =>
    cases n with
    | zero => omega
    | succ n =>
      have hrest := ih k' (n := n) (by simp only [length_cons] at hn; omega)
      rw [dumpItems,append_assoc,readItems,readString_quoted]
      · simp only [bind_some,cons_append]
        rw [hrest]
        rfl
      · exact fun h => nomatch h

def readList : List Char → Option (List String × List Char)
  | '[' :: ']' :: rest => some ([], rest)
  | '[' :: rest => readItems (rest.length + 1) rest
  | _ => none

theorem length_lt_dumpItems (ks : List String) : ks.length < (dumpItems ks).length + 1 := by
  induction ks with
  | nil => simp [dumpItems]
  | cons k ks ih =>
    cases ks with
    | nil => simp [dumpItems]
    | cons k' ks =>
      simp only [dumpItems,length_append,length_cons] at ih ⊢
      omega

theorem readList_dumpItems (ks : List String) (rest : List Char) :
    readList ('[' :: (dumpItems ks ++ rest)) = some (ks, rest) := by
  cases ks with
  | nil => rfl
  | cons k ks =>
    have hquote : ∃ cs, dumpItems (k :: ks) = '"' :: cs := by
      cases ks <;> exact ⟨_, rfl⟩
    have hlength := length_lt_dumpItems (k :: ks)
    have hitems := readItems_dumpItems k ks rest
      (n := (dumpItems (k :: ks) ++ rest).length + 1)
      (by simp only [length_append, length_cons] at hlength ⊢; omega)
    obtain ⟨cs, hcs⟩ := hquote
    rw [hcs] at hitems ⊢
    exact hitems

def highStart : List Char := "\x7b\"high_level_keywords\": ".toList

def lowStart : List Char := ", \"low_level_keywords\": ".toList

/-- `json.dumps({"high_level_keywords": …, "low_level_keywords": …})`. -/
def dumpsJson (p : List String × List String) : String :=
  String.ofList (highStart ++ '[' :: (dumpItems p.1 ++ (lowStart ++ '[' ::
    (dumpItems p.2 ++ ['\x7d']))))

/-- `json.loads` of an object of this shape. -/
def loadsJson (text : String) : Option Json :=
  (dropStart highStart text.toList).bind fun cs =>
    (readList cs).bind fun high =>
      (dropStart lowStart high.2).bind fun cs =>
        (readList cs).bind fun low =>
          if low.2 = ['\x7d'] then
            some (.object [("high_level_keywords", .array (high.1.map .string)),
              ("low_level_keywords", .array (low.1.map .string))])
          else none

theorem dropStart_append (start cs : List Char) : dropStart start (start ++ cs) = some cs := by
  unfold dropStart
  rw [if_pos (List.isPrefixOf_iff_prefix.mpr (prefix_append start cs)),drop_left]

theorem loadsJson_dumpsJson (high low : List String) :
    loadsJson (dumpsJson (high, low)) =
      some (.object [("high_level_keywords", .array (high.map .string)),
        ("low_level_keywords", .array (low.map .string))]) := by
  simp only [loadsJson,dumpsJson,String.toList_ofList,dropStart_append,bind_some,
    readList_dumpItems,if_true]

theorem dumpsJson_braces (p : List String × List String) :
    ∃ cs, (dumpsJson p).toList = '\x7b' :: cs ++ ['\x7d'] := by
  refine ⟨highStart.tail ++ '[' :: (dumpItems p.1 ++ (lowStart ++ '[' :: dumpItems p.2)),?_⟩
  have hstart : highStart = '\x7b' :: highStart.tail := rfl
  rw [dumpsJson,hstart]
  simp

end LightRAG.LlmCache
