/-
What is written as JSON is read back. The tokens of a value stand between
the value and its text. In every style the text is cut into these tokens,
as the layouts differ in gaps only, and a text is the same however its
characters are escaped; and the tokens are read as the value, whatever is
still open around it. Both go by induction over the value.

So the text of a value tells the value, and two values have no text in
common, not even in two styles.
-/
import RecipeChart.Proofs.Json.Reading

namespace RecipeChart

namespace JsonValue

-- =============================================================== tokens

mutual

/-- The tokens that write a value. -/
def tokens : JsonValue → List JsonToken
  | .null => [.null]
  | .int n => [.int n]
  | .text s => [.text s]
  | .list items => .openList :: ([.comma].intercalate (itemTokens items) ++ [.closeList])
  | .record fields => .openRecord :: ([.comma].intercalate (fieldTokens fields) ++ [.closeRecord])

def itemTokens : List JsonValue → List (List JsonToken)
  | [] => []
  | v :: vs => tokens v :: itemTokens vs

def fieldTokens : JsonFields → List (List JsonToken)
  | .nil => []
  | .cons name value rest => (.text name :: .colon :: tokens value) :: fieldTokens rest

end

theorem itemTokens_eq (vs : List JsonValue) : itemTokens vs = vs.map tokens := by
  induction vs with
  | nil => rfl
  | cons v vs ih => rw [itemTokens, List.map_cons, ih]

theorem fieldTokens_eq : ∀ fields : JsonFields,
    fieldTokens fields = fields.toList.map fun f => .text f.1 :: .colon :: tokens f.2
  | .nil => rfl
  | .cons name value rest => by
    rw [fieldTokens, JsonFields.toList, List.map_cons, fieldTokens_eq rest]

/-- No value starts with the end of a list. -/
theorem exists_tokens (v : JsonValue) : ∃ t ts, v.tokens = t :: ts ∧ t ≠ .closeList := by
  cases v
  all_goals exact ⟨_, _, rfl, nofun⟩

end JsonValue

-- ============================================================= the text

namespace JsonToken

/-- Items in brackets are cut into their tokens, in every layout. -/
theorem isCut_enclosed (opening closing : Char) {topen tclose : JsonToken}
    (hopen : ∀ rest, read? opening rest = some (some topen, 0))
    (hclose : ∀ rest, read? closing rest = some (some tclose, 0))
    (hclosing : closing.isDigit = false) (l : JsonValue.Layout) (level : Nat) {texts : List String}
    {tokens : List (List JsonToken)}
    (h : List.Forall₂ IsCutWhole (texts.map String.toList) tokens) (rest : List Char) :
    IsCut (JsonValue.enclosed l level (.singleton opening) (.singleton closing) texts).toList
      (topen :: ([.comma].intercalate tokens ++ [tclose])) rest := by
  unfold JsonValue.enclosed
  cases texts with
  | nil =>
      cases h
      rw [if_pos List.isEmpty_nil, String.toList_append, String.toList_singleton,
        String.toList_singleton]
      exact (IsCut.sign hopen _).append (IsCut.sign hclose rest)
  | cons text texts =>
      rw [List.map_cons] at h
      cases h with
      | @cons _ ts _ tokens htext htexts =>
        let sep := (l.comma (level + 1)).toList
        have hsep : ∀ rest, IsCut sep [.comma] rest := .comma l (level + 1)
        have hcomma : sep.head? = some ',' := head?_comma l (level + 1)
        have hhead : Undivided sep := fun c hc => by cases hcomma.symm.trans hc; rfl
        have hne : sep ≠ [] := fun hnil => by
          rw [hnil] at hcomma
          cases hcomma
        have hend : Undivided (((l.lineBreak level).toList ++ [closing]) ++ rest) := by
          rw [List.append_assoc]
          exact (undivided_lineBreak l level).append fun c hc => by cases hc; exact hclosing
        have hnext : Undivided ((texts.map String.toList).flatMap (sep ++ ·)
            ++ ((l.lineBreak level).toList ++ [closing]) ++ rest) := by
          rw [List.append_assoc]
          exact (undivided_separated hhead hne _).append hend
        have hcut := (IsCut.sign hopen _).append <| (IsCut.lineBreak l (level + 1) _).append <|
          (htext _ hnext).append <| (isCutWhole_separated hsep hhead hne htexts _ hend).append <|
          (IsCut.lineBreak l level _).append (IsCut.sign hclose rest)
        simpa [intercalate_cons, String.toList_intercalate, sep] using hcut

end JsonToken

namespace JsonValue

open JsonToken

/-- In every style a value is cut into its tokens, where no digit
follows. -/
theorem isCutWhole_writtenAt (s : Style) (v : JsonValue) (level : Nat) :
    IsCutWhole (writtenAt s level v).toList v.tokens := by
  intro rest hrest
  induction v using induct generalizing level rest with
  | null =>
      rw [show (writtenAt s level .null).toList = ['n', 'u', 'l', 'l'] from String.toList_ofList]
      exact IsCut.of_read? (t := some .null) rfl
  | int n => exact .int n hrest
  | text value => exact .quoted s.escaping value rest
  | list items ih =>
      rw [tokens, itemTokens_eq, writtenAt, writtenItems_eq]
      refine isCut_enclosed '[' ']' (fun _ => rfl) (fun _ => rfl) rfl s.layout level ?_ rest
      rw [List.map_map, List.forall₂_map_left_iff, List.forall₂_map_right_iff, List.forall₂_same]
      exact fun v hv rest hrest => ih v hv (level + 1) rest hrest
  | record fields ih =>
      rw [tokens, fieldTokens_eq, writtenAt, writtenFields_eq]
      refine isCut_enclosed '\x7b' '\x7d' (fun _ => rfl) (fun _ => rfl) rfl s.layout level ?_ rest
      rw [List.map_map, List.forall₂_map_left_iff, List.forall₂_map_right_iff, List.forall₂_same]
      intro f hf rest hrest
      have hcut := (IsCut.quoted s.escaping f.1 _).append <| (IsCut.colon s.layout _).append <|
        ih f hf (level + 1) rest hrest
      simpa [String.toList_append] using hcut

end JsonValue

-- ============================================================= the value

namespace JsonStage

theorem run_cons {s s' : JsonStage} {t : JsonToken} (h : s.next? t = some s')
    (ts : List JsonToken) : s.run (t :: ts) = s'.run ts := by
  rw [run, h]

/-- Where a list was opened, a value is read as its first item. -/
theorem run_firstItem (frames : List JsonFrame) (v : JsonValue) (rest : List JsonToken) :
    (firstItem frames).run (v.tokens ++ rest)
      = (value (.items [] :: frames)).run (v.tokens ++ rest) := by
  obtain ⟨t, ts, hv, ht⟩ := v.exists_tokens
  have hnext : (firstItem frames).next? t = (value (.items [] :: frames)).next? t := by
    cases t
    case closeList => exact absurd rfl ht
    all_goals rfl
  rw [hv, List.cons_append, run, run, hnext]

/-- The tokens of a value are read as the value, whatever is open around
it. -/
theorem run_tokens (v : JsonValue) (frames : List JsonFrame) (rest : List JsonToken) :
    (value frames).run (v.tokens ++ rest) = (deliver v frames).run rest := by
  induction v using JsonValue.induct generalizing frames rest with
  | null => rfl
  | int n => rfl
  | text s => rfl
  | list items ih =>
      -- the items behind the first, and the end of the list
      have htail : ∀ (vs read : List JsonValue), (∀ v ∈ vs, v ∈ items) →
          (afterItem frames read).run
              ((vs.map JsonValue.tokens).flatMap ([.comma] ++ ·) ++ .closeList :: rest)
            = (deliver (.list (read ++ vs)) frames).run rest := by
        intro vs
        induction vs with
        | nil =>
            intro read _
            rw [List.append_nil]
            rfl
        | cons v vs ihvs =>
            intro read hmem
            rw [List.forall_mem_cons] at hmem
            rw [List.map_cons, List.flatMap_cons, List.append_assoc, List.append_assoc,
              List.singleton_append, run_cons rfl, ih v hmem.1, deliver, ihvs _ hmem.2,
              List.append_assoc, List.singleton_append]
      rw [JsonValue.tokens, JsonValue.itemTokens_eq, List.cons_append, run_cons rfl]
      cases items with
      | nil => rfl
      | cons v vs =>
          rw [List.map_cons, intercalate_cons, List.append_assoc, List.append_assoc, run_firstItem,
            ih v List.mem_cons_self, deliver]
          exact htail vs [v] fun w hw => List.mem_cons_of_mem v hw
  | record fields ih =>
      let fieldTokens : String × JsonValue → List JsonToken :=
        fun f => .text f.1 :: .colon :: f.2.tokens
      have htail : ∀ (fs read : List (String × JsonValue)), (∀ f ∈ fs, f ∈ fields.toList) →
          (afterField frames read).run
              ((fs.map fieldTokens).flatMap ([.comma] ++ ·) ++ .closeRecord :: rest)
            = (deliver (.ofFields (read ++ fs)) frames).run rest := by
        intro fs
        induction fs with
        | nil =>
            intro read _
            rw [List.append_nil]
            rfl
        | cons f fs ihfs =>
            intro read hmem
            rw [List.forall_mem_cons] at hmem
            rw [List.map_cons, List.flatMap_cons, List.append_assoc, List.append_assoc,
              List.singleton_append, run_cons rfl, List.cons_append, List.cons_append, run_cons rfl,
              run_cons rfl, ih f hmem.1, deliver, ihfs _ hmem.2, List.append_assoc,
              List.singleton_append]
      have hfields : JsonValue.record fields = .ofFields fields.toList := by
        rw [JsonValue.ofFields, JsonFields.ofList_toList]
      rw [JsonValue.tokens, JsonValue.fieldTokens_eq, List.cons_append, run_cons rfl, hfields]
      cases hlist : fields.toList with
      | nil => rfl
      | cons f fs =>
          have hmem : ∀ g ∈ f :: fs, g ∈ fields.toList := fun g hg => hlist ▸ hg
          rw [List.forall_mem_cons] at hmem
          rw [List.map_cons, intercalate_cons, List.append_assoc, List.append_assoc,
            List.cons_append, List.cons_append, run_cons rfl, run_cons rfl, ih f hmem.1, deliver]
          exact htail fs [f] hmem.2

end JsonStage

/-- A value is read back from its text, whatever the style. -/
theorem JsonValue.read_written (s : Style) (v : JsonValue) : read (v.written s) = some v := by
  have hcut := isCutWhole_writtenAt s v 0 [] fun c hc => (nomatch hc)
  rw [JsonToken.IsCut, List.append_nil, JsonToken.cut, Option.map_some, List.append_nil] at hcut
  have hrun := JsonStage.run_tokens v [] []
  rw [List.append_nil] at hrun
  rw [read, written, hcut]
  show ((JsonStage.value []).run v.tokens).bind JsonStage.value? = some v
  rw [hrun]
  rfl

end RecipeChart
