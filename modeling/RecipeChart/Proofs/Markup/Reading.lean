/-
Markup read back. A source is cut into its tags, each from a bracket to the
next closing one, and the texts between them; entities are replaced by what
they stand for; and the elements are put together on a stack of those that
are still open.

What is written of an element is its tags and texts one after another, so
reading it back falls into two parts. A list of tags and texts is cut as it
was written, whatever the texts and the attribute values are: a text is
written without opening brackets, a value without closing brackets and
without quotes. Names are written as they are, so they have to be plain.
And the tags and texts of an element are put together again, whatever is
still open around it, by induction over the element.
-/
import RecipeChart.Markup
import RecipeChart.Proofs.Traversal

namespace RecipeChart.Markup

-- ================================================================ tags

/-- A tag. -/
inductive Tag where
  | opening (name : String) (attributes : List (String × String))
  | closing (name : String)
  deriving Repr, DecidableEq

-- ============================================================= reading

/-- The characters, every entity replaced by what it stands for. -/
def decoded : List Char → List Char
  | '&' :: 'a' :: 'm' :: 'p' :: ';' :: cs => '&' :: decoded cs
  | '&' :: 'l' :: 't' :: ';' :: cs => '<' :: decoded cs
  | '&' :: 'g' :: 't' :: ';' :: cs => '>' :: decoded cs
  | '&' :: 'q' :: 'u' :: 'o' :: 't' :: ';' :: cs => '"' :: decoded cs
  | c :: cs => c :: decoded cs
  | [] => []

mutual

/-- The text up to the first tag, and every tag, less its brackets, with
the text behind it. -/
def cutText : List Char → Option (List Char × List (List Char × List Char))
  | [] => some ([], [])
  | '<' :: cs => (cutTag cs).map fun (tag, text, more) => ([], (tag, text) :: more)
  | c :: cs => (cutText cs).map fun (text, more) => (c :: text, more)

/-- The rest of a tag, the text behind it, and the tags after that. -/
def cutTag : List Char → Option (List Char × List Char × List (List Char × List Char))
  | [] => none
  | '>' :: cs => (cutText cs).map fun (text, more) => ([], text, more)
  | c :: cs => (cutTag cs).map fun (tag, rest) => (c :: tag, rest)

end

mutual

/-- The attributes of a tag, behind its name or behind another attribute. -/
def attributesIn : List Char → Option (List (String × String))
  | [] => some []
  | ' ' :: cs => (nameIn cs).map fun (name, value, more) =>
      (String.ofList name, String.ofList (decoded value)) :: more
  | _ => none

/-- The rest of a name, the value, and the attributes after that. -/
def nameIn : List Char → Option (List Char × List Char × List (String × String))
  | [] => none
  | '=' :: '"' :: cs => (valueIn cs).map fun (value, more) => ([], value, more)
  | c :: cs => (nameIn cs).map fun (name, rest) => (c :: name, rest)

/-- The rest of a value, and the attributes after that. -/
def valueIn : List Char → Option (List Char × List (String × String))
  | [] => none
  | '"' :: cs => (attributesIn cs).map fun more => ([], more)
  | c :: cs => (valueIn cs).map fun (value, more) => (c :: value, more)

end

/-- The tag that stands between two brackets. -/
def tagIn : List Char → Option Tag
  | '/' :: name => some (.closing (String.ofList name))
  | cs => (attributesIn (cs.dropWhile (· != ' '))).map
      (.opening (String.ofList (cs.takeWhile (· != ' '))))

/-- The tag and the text behind it that were cut out. -/
def tokenIn (cut : List Char × List Char) : Option (Tag × String) :=
  (tagIn cut.1).map (·, String.ofList (decoded cut.2))

/-- The text up to the first tag, and every tag with the text behind it. -/
def tokens (source : String) : Option (String × List (Tag × String)) := do
  let (text, cut) ← cutText source.toList
  let more ← cut.mapM tokenIn
  return (String.ofList (decoded text), more)

/-- The tags of a source. -/
def tags (source : String) : Option (List Tag) := (tokens source).map fun t => t.2.map (·.1)

/-- An element of which the end has not come yet, with the text and the
nodes before it. -/
structure OpenElement where
  tag : String
  attributes : List (String × String)
  textBefore : String
  nodesBefore : List Node

/-- Puts the nodes together. At any time there is the text and there are the
nodes of the innermost open element, and the elements that are open. -/
def build : (text : String) → (nodes : List Node) → List OpenElement →
    List (Tag × String) → Option (String × List Node)
  | text, nodes, [], [] => some (text, nodes)
  | text, nodes, opened, (.opening tag attributes, inner) :: more =>
    build inner [] (⟨tag, attributes, text, nodes⟩ :: opened) more
  | text, nodes, e :: opened, (.closing tag, behind) :: more =>
    if e.tag = tag then
      build e.textBefore (e.nodesBefore ++ [.element tag e.attributes text nodes behind]) opened
        more
    else none
  | _, _, _, _ => none

/-- The element that a source consists of. -/
def read (source : String) : Option Node := do
  let (text, more) ← tokens source
  match ← build text [] [] more with
  | ("", [n]) => some n
  | _ => none

-- ============================================================= entities

/-- A character that opens no entity stands for itself. -/
theorem decoded_cons {c : Char} (h : c ≠ '&') (cs : List Char) :
    decoded (c :: cs) = c :: decoded cs := by
  rw [decoded]
  all_goals exact fun _ hc => absurd hc h

/-- A character of a text, escaped or not, stands for itself. -/
theorem decoded_textChar (c : Char) (cs : List Char) :
    decoded ((textChar c).toList ++ cs) = c :: decoded cs := by
  unfold textChar
  split_ifs with hamp hlt hgt
  · rw [hamp, String.toList_ofList]
    rfl
  · rw [hlt, String.toList_ofList]
    rfl
  · rw [hgt, String.toList_ofList]
    rfl
  · rw [Char.toString_eq_singleton, String.toList_singleton]
    exact decoded_cons hamp cs

/-- So does a character of a value. -/
theorem decoded_attributeChar (c : Char) (cs : List Char) :
    decoded ((attributeChar c).toList ++ cs) = c :: decoded cs := by
  unfold attributeChar
  split_ifs with hamp hgt hquote
  · rw [hamp, String.toList_ofList]
    rfl
  · rw [hgt, String.toList_ofList]
    rfl
  · rw [hquote, String.toList_ofList]
    rfl
  · rw [Char.toString_eq_singleton, String.toList_singleton]
    exact decoded_cons hamp cs

/-- What is written character by character is read back, if every
character is. -/
theorem decoded_join {escape : Char → String}
    (h : ∀ c cs, decoded ((escape c).toList ++ cs) = c :: decoded cs) (s : String) :
    decoded (String.join (s.toList.map escape)).toList = s.toList := by
  rw [String.toList_join, List.flatMap_map]
  induction s.toList with
  | nil => rfl
  | cons c cs ih => rw [List.flatMap_cons, h, ih]

/-- A text is decoded to what was escaped. -/
theorem decoded_escapeText (s : String) : decoded (escapeText s).toList = s.toList :=
  decoded_join decoded_textChar s

/-- A value is decoded to what was escaped. -/
theorem decoded_escapeAttribute (s : String) : decoded (escapeAttribute s).toList = s.toList :=
  decoded_join decoded_attributeChar s

/-- No text is written with an opening bracket. -/
theorem ne_of_mem_escapeText {s : String} {c : Char} (h : c ∈ (escapeText s).toList) : c ≠ '<' := by
  rw [escapeText, String.toList_join, List.flatMap_map, List.mem_flatMap] at h
  obtain ⟨d, -, hc⟩ := h
  unfold textChar at hc
  rintro rfl
  split_ifs at hc with hamp hlt hgt
  case neg =>
    rw [Char.toString_eq_singleton, String.toList_singleton, List.mem_singleton] at hc
    exact hlt hc.symm
  all_goals
    rw [String.toList_ofList] at hc
    exact absurd hc (by decide)

/-- No attribute is written with a closing bracket or a quote in its value. -/
theorem ne_of_mem_escapeAttribute {s : String} {c : Char} (h : c ∈ (escapeAttribute s).toList) :
    c ≠ '>' ∧ c ≠ '"' := by
  rw [escapeAttribute, String.toList_join, List.flatMap_map, List.mem_flatMap] at h
  obtain ⟨d, -, hc⟩ := h
  unfold attributeChar at hc
  split_ifs at hc with hamp hgt hquote
  case neg =>
    rw [Char.toString_eq_singleton, String.toList_singleton, List.mem_singleton] at hc
    exact hc ▸ ⟨hgt, hquote⟩
  all_goals
    rw [String.toList_ofList] at hc
    constructor
    all_goals
      rintro rfl
      exact absurd hc (by decide)

-- ============================================================== cutting

/-- A text without opening brackets is cut whole. -/
theorem cutText_append {text : List Char} (h : ∀ c ∈ text, c ≠ '<') (rest : List Char) :
    cutText (text ++ rest) = (cutText rest).map fun (next, more) => (text ++ next, more) := by
  induction text with
  | nil => exact Option.map_id'.symm
  | cons c cs ih =>
      rw [List.forall_mem_cons] at h
      rw [List.cons_append, cutText, ih h.2, Option.map_map]
      · rfl
      · exact h.1

/-- A tag without closing brackets is cut whole. -/
theorem cutTag_append {tag : List Char} (h : ∀ c ∈ tag, c ≠ '>') (rest : List Char) :
    cutTag (tag ++ '>' :: rest) = (cutText rest).map fun (text, more) => (tag, text, more) := by
  induction tag with
  | nil => rw [List.nil_append, cutTag]
  | cons c cs ih =>
      rw [List.forall_mem_cons] at h
      rw [List.cons_append, cutTag, ih h.2, Option.map_map]
      · rfl
      · exact h.1

-- =============================================================== names

/-- A name without the characters that end it. -/
def IsPlainName (name : String) : Prop := ∀ c ∈ name.toList, c.isAlpha = true

/-- A plain name holds no character but letters. -/
theorem IsPlainName.ne {name : String} (h : IsPlainName name) {c d : Char} (hc : c ∈ name.toList)
    (hd : d.isAlpha = false) : c ≠ d := by
  rintro rfl
  exact absurd (h c hc) (by rw [hd]; exact Bool.false_ne_true)

/-- A tag with plain names. -/
def Tag.IsPlain : Tag → Prop
  | .opening name attributes => IsPlainName name ∧ ∀ a ∈ attributes, IsPlainName a.1
  | .closing name => IsPlainName name

-- ========================================================== attributes

/-- A value without quotes is read whole. -/
theorem valueIn_append {value : List Char} (h : ∀ c ∈ value, c ≠ '"') (rest : List Char) :
    valueIn (value ++ '"' :: rest) = (attributesIn rest).map fun more => (value, more) := by
  induction value with
  | nil => rw [List.nil_append, valueIn]
  | cons c cs ih =>
      rw [List.forall_mem_cons] at h
      rw [List.cons_append, valueIn, ih h.2, Option.map_map]
      · rfl
      · exact h.1

/-- A name without an equals sign is read whole. -/
theorem nameIn_append {name : List Char} (h : ∀ c ∈ name, c ≠ '=') (rest : List Char) :
    nameIn (name ++ '=' :: '"' :: rest)
      = (valueIn rest).map fun (value, more) => (name, value, more) := by
  induction name with
  | nil => rw [List.nil_append, nameIn]
  | cons c cs ih =>
      rw [List.forall_mem_cons] at h
      rw [List.cons_append, nameIn, ih h.2, Option.map_map]
      · rfl
      · exact fun _ hc => absurd hc h.1

/-- An attribute is a blank, its name, an equals sign, and its value in
quotes. -/
theorem toList_attributeText (a : String × String) : (attributeText a).toList
    = ' ' :: (a.1.toList ++ '=' :: '"' :: ((escapeAttribute a.2).toList ++ ['"'])) := by
  simp [attributeText, String.toList_append]

/-- Attributes with plain names are read back, whatever their values are. -/
theorem attributesIn_written {attributes : List (String × String)}
    (h : ∀ a ∈ attributes, IsPlainName a.1) :
    attributesIn (attributes.flatMap fun a => (attributeText a).toList) = some attributes := by
  induction attributes with
  | nil => rfl
  | cons a attributes ih =>
      rw [List.forall_mem_cons] at h
      have hvalue : ∀ c ∈ (escapeAttribute a.2).toList, c ≠ '"' :=
        fun c hc => (ne_of_mem_escapeAttribute hc).2
      rw [List.flatMap_cons, toList_attributeText, List.cons_append, attributesIn,
        List.append_assoc, List.cons_append, List.cons_append, List.append_assoc,
        nameIn_append fun c hc => h.1.ne hc rfl, List.singleton_append, valueIn_append hvalue,
        ih h.2, Option.map_some, Option.map_some, Option.map_some]
      show some ((String.ofList a.1.toList, String.ofList (decoded (escapeAttribute a.2).toList))
        :: attributes) = some (a :: attributes)
      rw [decoded_escapeAttribute, String.ofList_toList, String.ofList_toList]

-- ================================================================ cutting

/-- A tag as it is written between its brackets. -/
def tagChars : Tag → List Char
  | .opening name attributes => name.toList ++ attributes.flatMap fun a => (attributeText a).toList
  | .closing name => '/' :: name.toList

/-- A tag with plain names is written without closing brackets. -/
theorem ne_of_mem_tagChars {t : Tag} (h : t.IsPlain) {c : Char} (hc : c ∈ tagChars t) :
    c ≠ '>' := by
  cases t with
  | opening name attributes =>
      rcases List.mem_append.1 hc with hc | hc
      · exact h.1.ne hc rfl
      · obtain ⟨a, ha, hc⟩ := List.mem_flatMap.1 hc
        rw [toList_attributeText] at hc
        simp only [List.mem_cons, List.mem_append, List.not_mem_nil, or_false] at hc
        rcases hc with rfl | hc | rfl | rfl | hc | rfl
        · decide
        · exact (h.2 a ha).ne hc rfl
        · decide
        · decide
        · exact (ne_of_mem_escapeAttribute hc).1
        · decide
  | closing name =>
      rcases List.mem_cons.1 hc with rfl | hc
      · decide
      · exact IsPlainName.ne h hc rfl

/-- A tag with plain names is read back. -/
theorem tagIn_tagChars {t : Tag} (h : t.IsPlain) : tagIn (tagChars t) = some t := by
  cases t with
  | opening name attributes =>
      let written := attributes.flatMap fun a => (attributeText a).toList
      have hname : ∀ c ∈ name.toList, (c != ' ') = true :=
        fun c hc => bne_iff_ne.2 (h.1.ne hc rfl)
      -- a name is followed by a blank, or by nothing
      have hwritten : written = [] ∨ ∃ rest, written = ' ' :: rest := by
        cases attributes with
        | nil => exact .inl rfl
        | cons a attributes => exact .inr ⟨_, by
            rw [show written = _ from List.flatMap_cons, toList_attributeText, List.cons_append]⟩
      have htake : written.takeWhile (· != ' ') = [] ∧ written.dropWhile (· != ' ') = written := by
        rcases hwritten with hw | ⟨rest, hw⟩
        all_goals rw [hw]; exact ⟨rfl, rfl⟩
      rw [show tagChars (.opening name attributes) = name.toList ++ written from rfl, tagIn,
        List.takeWhile_append_of_pos hname, List.dropWhile_append_of_pos hname, htake.1, htake.2,
        List.append_nil, String.ofList_toList, attributesIn_written h.2, Option.map_some]
      intro rest hslash
      cases hchars : name.toList with
      | nil =>
          rw [hchars, List.nil_append] at hslash
          rcases hwritten with hw | ⟨rest', hw⟩
          all_goals rw [hw] at hslash; cases hslash
      | cons c cs =>
          rw [hchars] at hslash
          exact h.1.ne (hchars ▸ List.mem_cons_self) (d := '/') rfl (List.cons.inj hslash).1
  | closing name => rw [tagChars, tagIn, String.ofList_toList]

/-- A tag with the text behind it, as they are written. -/
def tokenChars (t : Tag × String) : List Char :=
  '<' :: (tagChars t.1 ++ '>' :: (escapeText t.2).toList)

/-- Tags and texts are cut as they were written. -/
theorem cutText_tokenChars {ts : List (Tag × String)} (h : ∀ t ∈ ts, t.1.IsPlain) :
    cutText (ts.flatMap tokenChars)
      = some ([], ts.map fun t => (tagChars t.1, (escapeText t.2).toList)) := by
  induction ts with
  | nil => rfl
  | cons t ts ih =>
      rw [List.forall_mem_cons] at h
      rw [List.flatMap_cons, tokenChars, List.cons_append, List.append_assoc, List.cons_append,
        cutText, cutTag_append fun c hc => ne_of_mem_tagChars h.1 hc,
        cutText_append fun c hc => ne_of_mem_escapeText hc, ih h.2, Option.map_some,
        Option.map_some, Option.map_some]
      show some ([], (tagChars t.1, (escapeText t.2).toList ++ []) :: _) = _
      rw [List.append_nil, List.map_cons]

/-- A source of tags with plain names and texts behind them is read as these
tags and texts. -/
theorem tokens_eq {source : String} {ts : List (Tag × String)}
    (hsource : source.toList = ts.flatMap tokenChars) (h : ∀ t ∈ ts, t.1.IsPlain) :
    tokens source = some ("", ts) := by
  have hmore : (ts.map fun t => (tagChars t.1, (escapeText t.2).toList)).mapM tokenIn = some ts :=
    mapM_map_eq_some fun t ht => by
      rw [tokenIn, tagIn_tagChars (h t ht), Option.map_some, decoded_escapeText,
        String.ofList_toList]
  rw [tokens, hsource, cutText_tokenChars h]
  show ((ts.map _).mapM tokenIn >>= fun more => some (String.ofList (decoded []), more)) = _
  rw [hmore]
  rfl

-- =============================================================== elements

namespace Node

/-- What passes from the children to their element holds of every element. -/
@[elab_as_elim]
theorem induct {motive : Node → Prop}
    (element : ∀ tag attributes text children tail, (∀ n ∈ children, motive n) →
      motive (.element tag attributes text children tail)) (n : Node) : motive n := by
  refine @Node.rec motive (fun ns => ∀ n ∈ ns, motive n)
    element (fun n hn => nomatch hn) (fun n ns hn hns m hm => ?_) n
  rcases List.mem_cons.1 hm with rfl | hm
  · exact hn
  · exact hns m hm

mutual

/-- The tags of an element, each with the text behind it. -/
def tokens : Node → List (Tag × String)
  | .element tag attributes text children tail =>
    (.opening tag attributes, text) :: (tokensAll children ++ [(.closing tag, tail)])

def tokensAll : List Node → List (Tag × String)
  | [] => []
  | n :: ns => tokens n ++ tokensAll ns

end

/-- The tags of several elements are those of the first, then those of the
next. -/
theorem tokensAll_eq (ns : List Node) : tokensAll ns = ns.flatMap tokens := by
  induction ns with
  | nil => rfl
  | cons n ns ih => rw [tokensAll, List.flatMap_cons, ih]

/-- The tags of an element. -/
def tags (n : Node) : List Tag := n.tokens.map (·.1)

/-- The tags of an element are its own around those of its children. -/
theorem tags_element (tag : String) (attributes : List (String × String)) (text : String)
    (children : List Node) (tail : String) :
    (element tag attributes text children tail).tags
      = .opening tag attributes :: (children.flatMap tags ++ [.closing tag]) := by
  rw [tags, tokens, tokensAll_eq, List.map_cons, List.map_append, List.map_flatMap]
  rfl

/-- What is written of an element is its tags and texts. -/
theorem toList_written (n : Node) : n.written.toList = n.tokens.flatMap tokenChars := by
  induction n using induct with
  | element tag attributes text children tail ih =>
      have hall : (writtenAll children).toList = (tokensAll children).flatMap tokenChars := by
        clear tag attributes text tail
        induction children with
        | nil => rfl
        | cons n ns ihns =>
            rw [List.forall_mem_cons] at ih
            rw [writtenAll, tokensAll, String.toList_append, ih.1, ihns ih.2, List.flatMap_append]
      simp [written, tokens, tokenChars, tagChars, hall, String.toList_append, String.toList_join,
        List.flatMap_map]

end Node

/-- The tags and texts of an element are put together again, whatever is
open around it. -/
theorem build_tokens (n : Node) (text : String) (nodes : List Node) (opened : List OpenElement)
    (more : List (Tag × String)) :
    build text nodes opened (n.tokens ++ more) = build text (nodes ++ [n]) opened more := by
  induction n using Node.induct generalizing text nodes opened more with
  | element tag attributes inner children tail ih =>
      have hall : ∀ (before : List Node) (opened : List OpenElement) (more : List (Tag × String)),
          build inner before opened (Node.tokensAll children ++ more)
            = build inner (before ++ children) opened more := by
        clear tag attributes text tail nodes opened more
        induction children with
        | nil => intro before opened more; rw [List.append_nil]; rfl
        | cons n ns ihns =>
            intro before opened more
            rw [List.forall_mem_cons] at ih
            rw [Node.tokensAll, List.append_assoc, ih.1, ihns ih.2, List.append_assoc,
              List.singleton_append]
      rw [Node.tokens, List.cons_append, build, List.append_assoc, hall, List.nil_append,
        List.singleton_append, build, if_pos rfl]

/-- The tags and texts of an element that was written are read back, if its
names are plain. -/
theorem tokens_written {n : Node} (h : ∀ t ∈ n.tags, t.IsPlain) :
    tokens n.written = some ("", n.tokens) :=
  tokens_eq n.toList_written fun t ht => h t.1 (List.mem_map_of_mem ht)

/-- An element that was written is read back, if its names are plain. -/
theorem read_written {n : Node} (h : ∀ t ∈ n.tags, t.IsPlain) : read n.written = some n := by
  have hbuild := build_tokens n "" [] [] []
  rw [List.append_nil] at hbuild
  rw [read, tokens_written h]
  show (build "" [] [] n.tokens).bind _ = some n
  rw [hbuild]
  rfl

/-- The tags of what is written are the tags of the element. -/
theorem tags_written {n : Node} (h : ∀ t ∈ n.tags, t.IsPlain) : tags n.written = some n.tags := by
  rw [tags, tokens_written h]
  rfl

end RecipeChart.Markup
