/-
JSON read back. A text is cut into tokens by its characters, and the tokens
are run through a machine that keeps, for every list and record that is
still open, what was read of it. The reader knows nothing of layouts: blanks
may stand between any two tokens, and a character of a text may be escaped
in any of the ways that there are. Truth values and fractions are no values
here, and are not read.

A value that was written is read back, whatever its layout. The tokens of a
value are told beside it. That its text is cut into them goes by induction
over the value, where a number needs that no digit follows it
(`Undivided`); that they are read as the value goes by the same induction,
over all that may be open around it.
-/
import RecipeChart.Json
import RecipeChart.Proofs.Traversal

namespace RecipeChart

-- =============================================================== tokens

/-- A token of a JSON text. -/
inductive JsonToken where
  | openList
  | closeList
  | openRecord
  | closeRecord
  | colon
  | comma
  | null
  | int (value : Int)
  | text (value : String)

namespace JsonToken

-- ================================================================ texts

/-- The character that a letter stands for behind a backslash. -/
def escape? : Char → Option Char
  | '"' => some '"'
  | '\\' => some '\\'
  | '/' => some '/'
  | 'b' => some '\x08'
  | 'f' => some '\x0c'
  | 'n' => some '\n'
  | 'r' => some '\r'
  | 't' => some '\t'
  | _ => none

/-- The value of a hexadecimal digit of either case. -/
def hexDigit? (c : Char) : Option Nat :=
  if c.isDigit then some (c.toNat - '0'.toNat)
  else if 'a' ≤ c ∧ c ≤ 'f' then some (c.toNat - 'a'.toNat + 10)
  else if 'A' ≤ c ∧ c ≤ 'F' then some (c.toNat - 'A'.toNat + 10)
  else none

/-- The number that hexadecimal digits write. -/
def codeUnit? (digits : List Char) : Option Nat :=
  digits.foldlM (fun n c => (hexDigit? c).map (16 * n + ·)) 0

/-- The first half of a character beyond the 16-bit ones. -/
def isHighHalf (n : Nat) : Bool := 0xD800 ≤ n && n ≤ 0xDBFF

/-- The second half of such a character. -/
def isLowHalf (n : Nat) : Bool := 0xDC00 ≤ n && n ≤ 0xDFFF

/-- The character that two halves make. -/
def ofHalves (high low : Nat) : Char :=
  Char.ofNat (0x10000 + 0x400 * (high - 0xD800) + (low - 0xDC00))

/-- A text with one more character in front, which takes so many characters
to write. -/
def ahead (c : Char) (width : Nat) (rest : Option (List Char × Nat)) : Option (List Char × Nat) :=
  rest.map fun found => (c :: found.1, width + found.2)

/-- The characters of a text from behind its opening quote on, and how many
characters it takes to write them and the closing quote. -/
def textTail : List Char → Option (List Char × Nat)
  | [] => none
  | '"' :: _ => some ([], 1)
  | '\\' :: 'u' :: a :: b :: c :: d :: rest =>
    match codeUnit? [a, b, c, d] with
    | none => none
    | some n =>
      if isHighHalf n then
        match rest with
        | '\\' :: 'u' :: a' :: b' :: c' :: d' :: rest =>
          match codeUnit? [a', b', c', d'] with
          | none => none
          | some n' => if isLowHalf n' then ahead (ofHalves n n') 12 (textTail rest) else none
        | _ => none
      else if isLowHalf n then none
      else ahead (Char.ofNat n) 6 (textTail rest)
  | '\\' :: e :: rest =>
    match escape? e with
    | none => none
    | some c => ahead c 2 (textTail rest)
  | c :: rest => if c.toNat < 0x20 then none else ahead c 1 (textTail rest)

-- =============================================================== numbers

/-- Do the digits write a number? Only zero starts with a zero. -/
def isNumeral (digits : List Char) : Bool :=
  digits ≠ [] && (digits.head? ≠ some '0' || digits.length = 1)

/-- The number that decimal digits write. -/
def numeral? (digits : List Char) : Option Nat :=
  if isNumeral digits then some (Nat.ofDigitChars 10 digits 0) else none

-- =============================================================== cutting

/-- May the character stand between two tokens? -/
def isGap (c : Char) : Bool := c = ' ' || c = '\t' || c = '\n' || c = '\r'

/-- The token that starts with the character, none if it is a gap, and how
many of the characters after it belong to the token. -/
def read? (c : Char) (rest : List Char) : Option (Option JsonToken × Nat) :=
  let digits := rest.takeWhile Char.isDigit
  if isGap c then some (none, 0)
  else if c.isDigit then
    (numeral? (c :: digits)).map fun (n : Nat) => (some (.int n), digits.length)
  else match c with
    | '[' => some (some .openList, 0)
    | ']' => some (some .closeList, 0)
    | '\x7b' => some (some .openRecord, 0)
    | '\x7d' => some (some .closeRecord, 0)
    | ':' => some (some .colon, 0)
    | ',' => some (some .comma, 0)
    | 'n' => if rest.take 3 = ['u', 'l', 'l'] then some (some .null, 3) else none
    | '-' => (numeral? digits).map fun (n : Nat) => (some (.int (-n)), digits.length)
    | '"' => (textTail rest).map fun found => (some (.text (String.ofList found.1)), found.2)
    | _ => none

/-- The tokens that the source is cut into, where the first `skip`
characters belong to a token already read. -/
def cut : (skip : Nat) → List Char → Option (List JsonToken)
  | _, [] => some []
  | skip + 1, _ :: rest => cut skip rest
  | 0, c :: rest =>
    match read? c rest with
    | none => none
    | some (t, n) => (cut n rest).map (t.toList ++ ·)

end JsonToken

-- ============================================================= assembly

/-- A list or a record that is still open: the items that were read, or the
fields that were read and the name of the next one. -/
inductive JsonFrame where
  | items (read : List JsonValue)
  | fields (read : List (String × JsonValue)) (name : String)

/-- What comes next in a JSON text. -/
inductive JsonStage where
  /-- A value. -/
  | value (frames : List JsonFrame)
  /-- The first item of a list, or its end. -/
  | firstItem (frames : List JsonFrame)
  /-- A comma and an item, or the end of the list. -/
  | afterItem (frames : List JsonFrame) (read : List JsonValue)
  /-- The first name of a record, or its end. -/
  | firstName (frames : List JsonFrame)
  /-- A name. -/
  | nextName (frames : List JsonFrame) (read : List (String × JsonValue))
  /-- The colon behind the name. -/
  | colon (frames : List JsonFrame) (read : List (String × JsonValue)) (name : String)
  /-- A comma and a field, or the end of the record. -/
  | afterField (frames : List JsonFrame) (read : List (String × JsonValue))
  /-- Nothing. -/
  | done (value : JsonValue)

namespace JsonStage

/-- The stage after a value, which belongs to what was opened last. -/
def deliver (v : JsonValue) : List JsonFrame → JsonStage
  | [] => .done v
  | .items read :: frames => .afterItem frames (read ++ [v])
  | .fields read name :: frames => .afterField frames (read ++ [(name, v)])

/-- The stage after the first token of a value. -/
def beginValue (frames : List JsonFrame) : JsonToken → Option JsonStage
  | .null => some (deliver .null frames)
  | .int n => some (deliver (.int n) frames)
  | .text s => some (deliver (.text s) frames)
  | .openList => some (.firstItem frames)
  | .openRecord => some (.firstName frames)
  | _ => none

/-- The stage after one more token, if the token can stand there. -/
def next? : JsonStage → JsonToken → Option JsonStage
  | .value frames, t => beginValue frames t
  | .firstItem frames, .closeList => some (deliver (.list []) frames)
  | .firstItem frames, t => beginValue (.items [] :: frames) t
  | .afterItem frames read, .comma => some (.value (.items read :: frames))
  | .afterItem frames read, .closeList => some (deliver (.list read) frames)
  | .firstName frames, .closeRecord => some (deliver (.ofFields []) frames)
  | .firstName frames, .text n => some (.colon frames [] n)
  | .nextName frames read, .text n => some (.colon frames read n)
  | .colon frames read n, .colon => some (.value (.fields read n :: frames))
  | .afterField frames read, .comma => some (.nextName frames read)
  | .afterField frames read, .closeRecord => some (deliver (.ofFields read) frames)
  | _, _ => none

/-- The stage after all the tokens, if they can stand so. -/
def run : JsonStage → List JsonToken → Option JsonStage
  | s, [] => some s
  | s, t :: ts =>
    match s.next? t with
    | none => none
    | some s => run s ts

/-- The value that was read, if it was read in full. -/
def value? : JsonStage → Option JsonValue
  | .done v => some v
  | _ => none

end JsonStage

/-- The value that a JSON text writes. -/
def JsonValue.read (source : String) : Option JsonValue := do
  let tokens ← JsonToken.cut 0 source.toList
  let stage ← (JsonStage.value []).run tokens
  stage.value?

-- ============================================================ induction

namespace JsonValue

/-- What passes from items and fields to their list or record holds of every
value. -/
@[elab_as_elim]
theorem induct {motive : JsonValue → Prop} (null : motive .null) (int : ∀ n, motive (.int n))
    (text : ∀ s, motive (.text s)) (list : ∀ items, (∀ v ∈ items, motive v) → motive (.list items))
    (record : ∀ fields, (∀ f ∈ fields.toList, motive f.2) → motive (.record fields))
    (v : JsonValue) : motive v := by
  refine @JsonValue.rec motive (fun fields => ∀ f ∈ fields.toList, motive f.2)
    (fun items => ∀ v ∈ items, motive v) null int text list record
    (fun f hf => nomatch hf) (fun name v rest hv hrest f hf => ?_)
    (fun v hv => nomatch hv) (fun v vs hv hvs w hw => ?_) v
  · rcases List.mem_cons.1 hf with rfl | hf
    · exact hv
    · exact hrest f hf
  · rcases List.mem_cons.1 hw with rfl | hw
    · exact hv
    · exact hvs w hw

end JsonValue

namespace JsonToken

-- ================================================================ texts

/-- A character that needs no escape is read as it is. -/
theorem textTail_plain {c : Char} (hquote : c ≠ '"') (hslash : c ≠ '\\')
    (hc : ¬ c.toNat < 0x20) (rest : List Char) :
    textTail (c :: rest) = ahead c 1 (textTail rest) := by
  rw [textTail.eq_def]
  split
  · next h => cases h
  · next h =>
      cases h
      exact absurd rfl hquote
  · next h =>
      cases h
      exact absurd rfl hslash
  · next h =>
      cases h
      exact absurd rfl hslash
  · next h =>
      cases h
      exact if_neg hc

/-- A letter behind a backslash is read as the character it stands for. -/
theorem textTail_letter {e c : Char} (h : escape? e = some c) (rest : List Char) :
    textTail ('\\' :: e :: rest) = ahead c 2 (textTail rest) := by
  have hletter : e ≠ 'u' := by
    rintro rfl
    cases h
  rw [textTail.eq_def]
  split
  · next heq => cases heq
  · next heq => cases heq
  · next heq =>
      cases heq
      exact absurd rfl hletter
  · next heq =>
      cases heq
      rw [h]
  · next hnone heq =>
      cases heq
      exact absurd rfl (hnone e rest rfl)

/-- A character spelled by number, if the number is that of a character. -/
theorem textTail_unit {digits : List Char} {n : Nat} (hlength : digits.length = 4)
    (hn : codeUnit? digits = some n) (hhigh : isHighHalf n = false) (hlow : isLowHalf n = false)
    (rest : List Char) :
    textTail ('\\' :: 'u' :: (digits ++ rest)) = ahead (Char.ofNat n) 6 (textTail rest) := by
  match digits, hlength with
  | [a, b, c, d], _ =>
    show textTail ('\\' :: 'u' :: a :: b :: c :: d :: rest) = _
    rw [textTail, hn]
    simp only [hhigh, hlow, Bool.false_eq_true, if_false]

/-- Two numbers of halves spell one character. -/
theorem textTail_halves {digits digits' : List Char} {n n' : Nat} (hlength : digits.length = 4)
    (hlength' : digits'.length = 4) (hn : codeUnit? digits = some n)
    (hn' : codeUnit? digits' = some n') (hhigh : isHighHalf n = true) (hlow : isLowHalf n' = true)
    (rest : List Char) :
    textTail ('\\' :: 'u' :: (digits ++ '\\' :: 'u' :: (digits' ++ rest)))
      = ahead (ofHalves n n') 12 (textTail rest) := by
  match digits, digits', hlength, hlength' with
  | [a, b, c, d], [a', b', c', d'], _, _ =>
    show textTail ('\\' :: 'u' :: a :: b :: c :: d
      :: '\\' :: 'u' :: a' :: b' :: c' :: d' :: rest) = _
    rw [textTail, hn]
    simp only [hhigh, hn', hlow, if_true]

-- ========================================================= hexadecimals

/-- A digit reads as its value. -/
theorem hexDigit?_digitChar : ∀ d < 16, hexDigit? d.digitChar = some d := by decide

/-- The digits of a number are read as the number. -/
theorem codeUnit?_toDigits (n : Nat) : codeUnit? (Nat.toDigits 16 n) = some n := by
  induction n using Nat.strongRecOn with
  | _ n ih =>
    by_cases hn : n < 16
    · rw [Nat.toDigits_of_lt_base hn, codeUnit?, List.foldlM_cons, hexDigit?_digitChar n hn]
      simp
    · have hlast := hexDigit?_digitChar (n % 16) (Nat.mod_lt n (by decide))
      have hfront : (Nat.toDigits 16 (n / 16)).foldlM
          (fun n c => (hexDigit? c).map (16 * n + ·)) 0 = some (n / 16) := ih (n / 16) (by omega)
      rw [Nat.toDigits_of_base_le (by decide) (by omega), codeUnit?, List.foldlM_append, hfront]
      simp only [Option.bind_eq_bind, Option.bind_some, List.foldlM_cons, hlast, Option.map_some,
        List.foldlM_nil, Option.pure_def, Nat.div_add_mod]

/-- Zeros in front do not count. -/
theorem codeUnit?_zeros (k : Nat) (digits : List Char) :
    codeUnit? (List.replicate k '0' ++ digits) = codeUnit? digits := by
  induction k with
  | zero => rfl
  | succ k ih => rw [List.replicate_succ, List.cons_append, ← ih]; rfl

/-- A unit of 16 bits has four digits, and is read from them. -/
theorem codeUnit?_hexadecimal {n : Nat} (h : n < 0x10000) :
    (Text.hexadecimal 4 n).toList.length = 4
      ∧ codeUnit? (Text.hexadecimal 4 n).toList = some n := by
  have hlength : (Nat.toDigits 16 n).length ≤ 4 :=
    (Nat.length_toDigits_le_iff (by decide) (by decide)).2 h
  have hdigits : (Text.hexadecimal 4 n).toList
      = List.replicate (4 - (Nat.toDigits 16 n).length) '0' ++ Nat.toDigits 16 n := by
    rw [Text.hexadecimal, String.toList_append, String.toList_ofList, String.toList_ofList,
      String.length_ofList]
  rw [hdigits, codeUnit?_zeros, codeUnit?_toDigits, List.length_append, List.length_replicate]
  exact ⟨by omega, rfl⟩

/-- An escaped unit is a mark and its four digits. -/
theorem toList_unitEscape (n : Nat) :
    (JsonValue.unitEscape n).toList = '\\' :: 'u' :: (Text.hexadecimal 4 n).toList := by
  rw [JsonValue.unitEscape, String.toList_append]
  rfl

/-- The numbers of the characters leave out those of the halves. -/
theorem toNat_valid (c : Char) :
    c.toNat < 0xD800 ∨ 0xDFFF < c.toNat ∧ c.toNat < 0x110000 := c.valid

/-- The numbers of characters have an end. -/
theorem toNat_lt (c : Char) : c.toNat < 0x110000 := by
  have hvalid := toNat_valid c
  omega

/-- No character is a half of another. -/
theorem not_half (c : Char) : isHighHalf c.toNat = false ∧ isLowHalf c.toNat = false := by
  have hvalid := toNat_valid c
  simp only [isHighHalf, isLowHalf, Bool.and_eq_false_iff, decide_eq_false_iff_not]
  omega

/-- A number beyond 16 bits falls into a first half, a second half and
nothing else. -/
theorem halves {n : Nat} (h : 0x10000 ≤ n) (hn : n < 0x110000) :
    ∃ high low, high = 0xD800 + (n - 0x10000) / 0x400 ∧ low = 0xDC00 + (n - 0x10000) % 0x400
      ∧ high < 0x10000 ∧ low < 0x10000 ∧ isHighHalf high = true ∧ isLowHalf low = true
      ∧ ofHalves high low = Char.ofNat n := by
  refine ⟨_, _, rfl, rfl, by omega, by omega, ?_, ?_, ?_⟩
  · simp only [isHighHalf, Bool.and_eq_true, decide_eq_true_eq]
    omega
  · simp only [isLowHalf, Bool.and_eq_true, decide_eq_true_eq]
    omega
  · exact congrArg Char.ofNat (by omega)

/-- Two units that are halves are read back as the character they make. -/
theorem textTail_units {high low : Nat} (hhigh : high < 0x10000) (hlow : low < 0x10000)
    (hfirst : isHighHalf high = true) (hsecond : isLowHalf low = true) (rest : List Char) :
    textTail ((JsonValue.unitEscape high ++ JsonValue.unitEscape low).toList ++ rest)
      = ahead (ofHalves high low)
        (JsonValue.unitEscape high ++ JsonValue.unitEscape low).toList.length (textTail rest) := by
  obtain ⟨hlength, hunit⟩ := codeUnit?_hexadecimal hhigh
  obtain ⟨hlength', hunit'⟩ := codeUnit?_hexadecimal hlow
  have hread := textTail_halves hlength hlength' hunit hunit' hfirst hsecond rest
  rw [String.toList_append, toList_unitEscape, toList_unitEscape, List.append_assoc,
    List.cons_append, List.cons_append, List.cons_append, List.cons_append, hread]
  simp only [List.length_append, List.length_cons, hlength, hlength']

/-- A character that is spelled by number is read back. -/
theorem textTail_numbered (c : Char) (rest : List Char) :
    textTail ((JsonValue.numbered c).toList ++ rest)
      = ahead c (JsonValue.numbered c).toList.length (textTail rest) := by
  unfold JsonValue.numbered
  split
  · next hshort =>
      obtain ⟨hlength, hunit⟩ := codeUnit?_hexadecimal hshort
      obtain ⟨hhigh, hlow⟩ := not_half c
      have hread := textTail_unit hlength hunit hhigh hlow rest
      rw [Char.ofNat_toNat] at hread
      rw [toList_unitEscape, List.cons_append, List.cons_append, hread, List.length_cons,
        List.length_cons, hlength]
  · next hlong =>
      obtain ⟨high, low, hhigh, hlow, hhigh', hlow', hfirst, hsecond, hchar⟩ :=
        halves (Nat.le_of_not_lt hlong) (toNat_lt c)
      rw [← hhigh, ← hlow, textTail_units hhigh' hlow' hfirst hsecond, hchar, Char.ofNat_toNat]

variable (e : JsonValue.Escaping)

/-- A character is read back from the way it is written. -/
theorem textTail_escaped (c : Char) (rest : List Char) :
    textTail ((JsonValue.escaped e c).toList ++ rest)
      = ahead c (JsonValue.escaped e c).toList.length (textTail rest) := by
  unfold JsonValue.escaped
  split
  · next h => exact h ▸ textTail_letter rfl rest
  split
  · next h => exact h ▸ textTail_letter rfl rest
  split
  · next h => exact h ▸ textTail_letter rfl rest
  split
  · next h => exact h ▸ textTail_letter rfl rest
  split
  · next h => exact h ▸ textTail_letter rfl rest
  split
  · next h => exact h ▸ textTail_letter rfl rest
  split
  · next h => exact h ▸ textTail_letter rfl rest
  split
  · next hquote hslash _ _ _ _ _ hleft =>
      have hcontrol : ¬ c.toNat < 0x20 := by
        simp only [JsonValue.Escaping.leaves, Bool.and_eq_true, decide_eq_true_eq] at hleft
        omega
      rw [Char.toString_eq_singleton, String.toList_singleton]
      exact textTail_plain hquote hslash hcontrol rest
  · exact textTail_numbered c rest

/-- A text is read back up to its closing quote. -/
theorem textTail_quoted (cs rest : List Char) :
    textTail ((cs.flatMap fun c => (JsonValue.escaped e c).toList) ++ '"' :: rest)
      = some (cs, (cs.flatMap fun c => (JsonValue.escaped e c).toList).length + 1) := by
  induction cs with
  | nil => rfl
  | cons c cs ih =>
      rw [List.flatMap_cons, List.append_assoc, textTail_escaped, ih, List.length_append,
        Nat.add_assoc]
      rfl

-- =============================================================== numbers

/-- No number but zero starts with a zero. -/
theorem head?_toDigits {n : Nat} (h : n ≠ 0) : (Nat.toDigits 10 n).head? ≠ some '0' := by
  induction n using Nat.strongRecOn with
  | _ n ih =>
    by_cases hn : n < 10
    · rw [Nat.toDigits_of_lt_base hn]
      have hdigits : ∀ m < 10, m ≠ 0 → [m.digitChar].head? ≠ some '0' := by decide
      exact hdigits n hn h
    · rw [Nat.toDigits_of_base_le (by decide) (by omega),
        List.head?_append_of_ne_nil _ Nat.toDigits_ne_nil]
      exact ih (n / 10) (by omega) (by omega)

/-- A number is read as it is written in decimal digits. -/
theorem numeral?_toDigits (n : Nat) : numeral? (Nat.toDigits 10 n) = some n := by
  have hnumeral : isNumeral (Nat.toDigits 10 n) = true := by
    unfold isNumeral
    rw [decide_eq_true Nat.toDigits_ne_nil, Bool.true_and, Bool.or_eq_true, decide_eq_true_eq]
    by_cases hn : n = 0
    · right
      subst hn
      rfl
    · exact .inl (head?_toDigits hn)
  unfold numeral?
  rw [if_pos hnumeral, Nat.ofDigitChars_ten_toDigits]

/-- No digit follows. -/
def Undivided (rest : List Char) : Prop := ∀ c ∈ rest.head?, c.isDigit = false

-- =============================================================== cutting

/-- The text is cut into these tokens, before the rest. -/
def IsCut (text : List Char) (ts : List JsonToken) (rest : List Char) : Prop :=
  cut 0 (text ++ rest) = (cut 0 rest).map (ts ++ ·)

/-- What belongs to a token is passed over. -/
theorem cut_length (front rest : List Char) : cut front.length (front ++ rest) = cut 0 rest := by
  induction front with
  | nil => rfl
  | cons c front ih =>
      rw [List.length_cons, List.cons_append, cut]
      exact ih

namespace IsCut

variable {text text' rest : List Char} {ts ts' : List JsonToken}

theorem nil (rest : List Char) : IsCut [] [] rest := by
  unfold IsCut
  simp

/-- A text in front of another is cut in front of it. -/
theorem append (h : IsCut text ts (text' ++ rest)) (h' : IsCut text' ts' rest) :
    IsCut (text ++ text') (ts ++ ts') rest := by
  unfold IsCut at h h' ⊢
  rw [List.append_assoc, h, h', Option.map_map]
  simp only [Function.comp_def, List.append_assoc]

/-- A token is cut off its text. -/
theorem of_read? {c : Char} {tail : List Char} {t : Option JsonToken}
    (h : read? c (tail ++ rest) = some (t, tail.length)) : IsCut (c :: tail) t.toList rest := by
  unfold IsCut
  rw [List.cons_append, cut, h]
  simp only [cut_length]

/-- Blanks are cut away. -/
theorem gaps (h : ∀ c ∈ text, isGap c = true) (rest : List Char) : IsCut text [] rest := by
  induction text with
  | nil => exact nil rest
  | cons c text ih =>
      rw [List.forall_mem_cons] at h
      have hread : read? c ([] ++ (text ++ rest)) = some (none, 0) := by
        unfold read?
        exact if_pos h.1
      exact (of_read? hread).append (ih h.2)

/-- A number is cut off where no digit follows it. -/
theorem int (n : Int) (hrest : Undivided rest) : IsCut (toString n).toList [.int n] rest := by
  have hall : ∀ m : Nat, ∀ c ∈ Nat.toDigits 10 m, c.isDigit = true := fun m c hc =>
    Nat.isDigit_of_mem_toDigits (by decide) (by decide) hc
  rw [Int.toString_eq_repr, Int.repr_eq_if]
  split
  · next hn =>
      -- the first digit tells that a number comes
      rw [Nat.repr_eq_ofList_toDigits, String.toList_ofList]
      have hdigits := numeral?_toDigits n.toNat
      cases hm : Nat.toDigits 10 n.toNat with
      | nil => exact absurd hm Nat.toDigits_ne_nil
      | cons c tail =>
          have hmem := hall n.toNat
          rw [hm, List.forall_mem_cons] at hmem
          rw [hm] at hdigits
          have hgap : ¬ isGap c = true := fun hgap => by
            simp only [isGap, Bool.or_eq_true, decide_eq_true_eq] at hgap
            rcases hgap with ((rfl | rfl) | rfl) | rfl <;> exact absurd hmem.1 (by decide)
          refine of_read? (t := some (.int n)) ?_
          unfold read?
          rw [takeWhile_append_of_head hmem.2 hrest, if_neg hgap, if_pos hmem.1, hdigits,
            Option.map_some, Int.toNat_of_nonneg hn]
  · next hn =>
      have hsign : - ((-n).toNat : Int) = n := by omega
      rw [Nat.repr_eq_ofList_toDigits, String.toList_append, String.toList_ofList,
        String.toList_ofList, List.singleton_append]
      refine @of_read? rest '-' _ (some (.int n)) ?_
      show (numeral? ((Nat.toDigits 10 (-n).toNat ++ rest).takeWhile Char.isDigit)).map _ = _
      rw [takeWhile_append_of_head (hall _) hrest, numeral?_toDigits, Option.map_some, hsign]

/-- A text is a token whatever follows it. -/
theorem quoted (e : JsonValue.Escaping) (s : String) (rest : List Char) :
    IsCut (JsonValue.quoted e s).toList [.text s] rest := by
  have htext : (JsonValue.quoted e s).toList
      = '"' :: ((s.toList.flatMap fun c => (JsonValue.escaped e c).toList) ++ ['"']) := by
    simp [JsonValue.quoted, String.toList_join, List.flatMap_map]
  rw [htext]
  refine of_read? (t := some (.text s)) ?_
  rw [List.append_assoc]
  show (textTail _).map _ = _
  rw [List.singleton_append, textTail_quoted, Option.map_some, String.ofList_toList,
    List.length_append]
  rfl

/-- A sign is a token whatever follows it. -/
theorem sign {c : Char} {t : JsonToken} (h : ∀ rest, read? c rest = some (some t, 0))
    (rest : List Char) : IsCut [c] [t] rest :=
  of_read? (t := some t) (h _)

end IsCut

-- =========================================================== separators

/-- No digit follows where none follows either of two texts. -/
theorem Undivided.append {text rest : List Char} (h : Undivided text) (hrest : Undivided rest) :
    Undivided (text ++ rest) := by
  cases text with
  | nil => exact hrest
  | cons c text => exact h

theorem undivided_lineBreak (l : JsonValue.Layout) (level : Nat) :
    Undivided (l.lineBreak level).toList := by
  cases l with
  | compact | line => exact fun c hc => (nomatch hc)
  | lines indent =>
      intro c hc
      rw [JsonValue.Layout.lineBreak, String.toList_ofList] at hc
      cases hc
      rfl

/-- In every layout a comma comes first of what stands between two items. -/
theorem head?_comma (l : JsonValue.Layout) (level : Nat) :
    (l.comma level).toList.head? = some ',' := by
  have hbroken : ("," ++ l.lineBreak level).toList.head? = some ',' := by
    rw [String.toList_append]
    rfl
  have hspaced : (", " : String).toList.head? = some ',' := rfl
  cases l with
  | line => exact hspaced
  | compact | lines indent => exact hbroken

namespace IsCut

/-- What stands before an item is cut away in any layout. -/
theorem lineBreak (l : JsonValue.Layout) (level : Nat) (rest : List Char) :
    IsCut (l.lineBreak level).toList [] rest := by
  refine gaps (fun c hc => ?_) rest
  cases l with
  | compact | line => cases hc
  | lines indent =>
      rw [JsonValue.Layout.lineBreak, String.toList_ofList] at hc
      rcases List.mem_cons.1 hc with rfl | hc
      · rfl
      · rw [List.eq_of_mem_replicate hc]
        rfl

/-- A colon is a token, with or without a blank behind it. -/
theorem colon (l : JsonValue.Layout) (rest : List Char) : IsCut l.colon.toList [.colon] rest := by
  have hcolon := sign (c := ':') (t := .colon) (fun _ => rfl)
  have hspaced : IsCut ([':'] ++ [' ']) [.colon] rest :=
    (hcolon _).append (gaps (List.forall_mem_singleton.2 rfl) rest)
  have htext : (": " : String).toList = [':'] ++ [' '] := rfl
  cases l with
  | compact => exact hcolon rest
  | line | lines indent => exact htext ▸ hspaced

/-- A comma is a token, whatever gap there is behind it. -/
theorem comma (l : JsonValue.Layout) (level : Nat) (rest : List Char) :
    IsCut (l.comma level).toList [.comma] rest := by
  have hcomma := sign (c := ',') (t := .comma) (fun _ => rfl)
  have htext : (", " : String).toList = [','] ++ [' '] := rfl
  have hbroken : IsCut ("," ++ l.lineBreak level).toList [.comma] rest := by
    rw [String.toList_append]
    exact (hcomma _).append (lineBreak l level rest)
  cases l with
  | line =>
      have hspaced : IsCut ([','] ++ [' ']) [.comma] rest :=
        (hcomma _).append (gaps (List.forall_mem_singleton.2 rfl) rest)
      exact htext ▸ hspaced
  | compact | lines indent => exact hbroken

end IsCut

/-- Where no digit follows, the text is cut into these tokens. -/
def IsCutWhole (text : List Char) (ts : List JsonToken) : Prop :=
  ∀ rest, Undivided rest → IsCut text ts rest

variable {sep : List Char} {texts : List (List Char)} {tokens : List (List JsonToken)}

/-- What is separated starts with a separator. -/
theorem undivided_separated (hhead : Undivided sep) (hne : sep ≠ []) (texts : List (List Char)) :
    Undivided (texts.flatMap (sep ++ ·)) := by
  cases texts with
  | nil => exact fun c hc => (nomatch hc)
  | cons text texts =>
      cases sep with
      | nil => exact absurd rfl hne
      | cons c sep => exact hhead

/-- Items behind the first, each behind a separator that is a comma. -/
theorem isCutWhole_separated (hsep : ∀ rest, IsCut sep [.comma] rest) (hhead : Undivided sep)
    (hne : sep ≠ []) (h : List.Forall₂ IsCutWhole texts tokens) :
    IsCutWhole (texts.flatMap (sep ++ ·)) (tokens.flatMap ([.comma] ++ ·)) := by
  induction h with
  | nil => exact fun rest _ => .nil rest
  | @cons text ts texts tokens htext _ ih =>
      intro rest hrest
      have hnext := (undivided_separated hhead hne texts).append hrest
      exact ((hsep _).append (htext _ hnext)).append (ih rest hrest)

end JsonToken

end RecipeChart
