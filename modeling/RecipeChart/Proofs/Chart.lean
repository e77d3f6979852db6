/-
Charts read back. A chart is put together again from the value that it is
written as: a field is found by its name, and a field that is absent says
what the brief form leaves out, no amount and empty lists. That a chart
comes back whole goes by induction over its tree, part by part; what is
done about the detail is said once, of a single field (`optional_eq`).

With the reading of the text this tells the chart from its text, whatever
the detail and the layout. The handles of a tree are resolved first, which
succeeds if the registry has handed them all out. Only the depth of a
chart and the width of its indentation can be in the way.
-/
import RecipeChart.Chart
import RecipeChart.Proofs.Json.Rereading
import RecipeChart.Proofs.Handles
import RecipeChart.Proofs.StepTree.Objects

namespace RecipeChart

-- ============================================================== reading

namespace JsonValue

def asInt? : JsonValue → Option Int
  | .int n => some n
  | _ => none

def asText? : JsonValue → Option String
  | .text s => some s
  | _ => none

def asList? : JsonValue → Option (List JsonValue)
  | .list items => some items
  | _ => none

end JsonValue

namespace JsonFields

/-- The value of the field with the name, if there is one. -/
def find? (fields : JsonFields) (name : String) : Option JsonValue := fields.toList.lookup name

/-- What a required field says. -/
def required {α : Type} (fields : JsonFields) (name : String) (read : JsonValue → Option α) :
    Option α :=
  (fields.find? name).bind read

/-- What a field says, or what it says by its absence. -/
def optional {α : Type} (fields : JsonFields) (name : String) (absent : α)
    (read : JsonValue → Option α) : Option α :=
  match fields.find? name with
  | none => some absent
  | some value => read value

end JsonFields

namespace Chart

open JsonFields

def amountOf : JsonValue → Option (Option String)
  | .null => some none
  | .text amount => some (some amount)
  | _ => none

def ingredientOf : JsonValue → Option (Ingredient String)
  | .record fields => do
    let name ← fields.required "name" JsonValue.asText?
    let amount ← fields.optional "amount" none amountOf
    return ⟨name, amount⟩
  | _ => none

def ingredientsOf (v : JsonValue) : Option (List (Ingredient String)) :=
  v.asList?.bind (List.mapM ingredientOf)

def actionOf : JsonValue → Option (Action String)
  | .record fields => do
    let name ← fields.required "name" JsonValue.asText?
    let seasonings ← fields.optional "seasonings" [] ingredientsOf
    return ⟨name, seasonings⟩
  | _ => none

def actionsOf (v : JsonValue) : Option (List (Action String)) :=
  v.asList?.bind (List.mapM actionOf)

mutual

/-- The node with all below it. -/
def treeOf : JsonValue → Option (StepTree String)
  | .record fields => do
    let size ← fields.required "size" JsonValue.asInt?
    let maxDepth ← fields.required "max_depth" JsonValue.asInt?
    let actions ← fields.optional "actions" [] actionsOf
    let ingredients ← fields.optional "ingredients" [] ingredientsOf
    let paths ← pathsOf fields
    return .node actions ingredients size maxDepth paths
  | _ => none

/-- The paths of a node with the fields. -/
def pathsOf : JsonFields → Option (List (StepTree String))
  | .nil => some []
  | .cons name value rest => if name = "paths" then treesIn value else pathsOf rest

def treesIn : JsonValue → Option (List (StepTree String))
  | .list items => treesOf items
  | _ => none

def treesOf : List JsonValue → Option (List (StepTree String))
  | [] => some []
  | v :: vs => do
    let t ← treeOf v
    let ts ← treesOf vs
    return t :: ts

end

/-- The chart that is written as the value. -/
def ofJson? : JsonValue → Option Chart
  | .record fields => do
    let title ← fields.required "title" JsonValue.asText?
    let tree ← fields.required "tree" treeOf
    return ⟨title, tree⟩
  | _ => none

/-- The chart that the source tells. -/
def read (source : String) : Option Chart := (JsonValue.read source).bind ofJson?

-- =============================================================== fields

variable (d : Detail)

/-- A field is not found under another name, whether or not it is
written. -/
theorem lookup_field_ne {name other : String} (h : (other == name) = false) (value : JsonValue) :
    (d.field name value).lookup other = none := by
  unfold Detail.field
  split
  · rfl
  · rw [List.lookup_cons, h]
    rfl

/-- A field that is written in some detail is found and read, or it is
left out and its absence says the same. -/
theorem optional_eq {α : Type} {fields : List (String × JsonValue)} (name : String)
    {value : JsonValue} {read : JsonValue → Option α} {x absent : α}
    (hfound : fields.lookup name = (d.field name value).lookup name) (hread : read value = some x)
    (habsent : value.isBlank = true → x = absent) :
    (JsonFields.ofList fields).optional name absent read = some x := by
  rw [JsonFields.optional, JsonFields.find?, JsonFields.toList_ofList, hfound, Detail.field]
  by_cases hleft : (decide (d = .brief) && value.isBlank) = true
  · rw [if_pos hleft, habsent (Bool.and_eq_true_iff.1 hleft).2]
    rfl
  · rw [if_neg hleft, List.lookup_cons_self]
    exact hread

/-- A field that is written says what its value is read as. -/
theorem required_eq {α : Type} {fields : List (String × JsonValue)} {name : String}
    (read : JsonValue → Option α) (value : JsonValue) (hfound : fields.lookup name = some value) :
    (JsonFields.ofList fields).required name read = read value := by
  rw [JsonFields.required, JsonFields.find?, JsonFields.toList_ofList, hfound]
  rfl

/-- The paths are read like any field that may be absent. -/
theorem pathsOf_eq : ∀ fields : JsonFields, pathsOf fields = fields.optional "paths" [] treesIn
  | .nil => rfl
  | .cons name value rest => by
    rw [pathsOf, pathsOf_eq rest, JsonFields.optional, JsonFields.optional, JsonFields.find?,
      JsonFields.find?, JsonFields.toList, List.lookup_cons]
    by_cases h : name = "paths"
    · rw [if_pos h, h, beq_self_eq_true]
    · rw [if_neg h, beq_false_of_ne (Ne.symm h)]

/-- Several trees are read from the items of a list. -/
theorem treesIn_list (items : List JsonValue) : treesIn (.list items) = items.mapM treeOf := by
  rw [treesIn]
  induction items with
  | nil => rfl
  | cons v vs ih => rw [treesOf, ih, List.mapM_cons]

/-- A list that says nothing is empty. -/
theorem eq_nil_of_isBlank {α : Type} {json : α → JsonValue} {xs : List α}
    (h : (JsonValue.list (xs.map json)).isBlank = true) : xs = [] :=
  List.map_eq_nil_iff.1 (List.isEmpty_iff.1 h)

-- =========================================================== reading back

/-- An amount is read as it was written, and so is its absence. -/
theorem amountOf_amountJson (amount : Option String) :
    amountOf (amountJson amount) = some amount := by
  cases amount <;> rfl

/-- An amount that says nothing is absent. -/
theorem eq_none_of_isBlank {amount : Option String} (h : (amountJson amount).isBlank = true) :
    amount = none := by
  cases amount with
  | none => rfl
  | some amount => cases h

/-- An ingredient is read as it was written, in either detail. -/
theorem ingredientOf_ingredientJson (i : Ingredient String) :
    ingredientOf (ingredientJson d i) = some i := by
  rw [ingredientJson, JsonValue.ofFields, ingredientOf,
    required_eq JsonValue.asText? _ List.lookup_cons_self,
    optional_eq d "amount" ?_ (amountOf_amountJson i.amount) eq_none_of_isBlank]
  all_goals rfl

/-- So are several ingredients. -/
theorem ingredientsOf_list (items : List (Ingredient String)) :
    ingredientsOf (.list (items.map (ingredientJson d))) = some items :=
  mapM_map_eq_some fun i _ => ingredientOf_ingredientJson d i

/-- An action is read as it was written, its seasonings in their order. -/
theorem actionOf_actionJson (a : Action String) : actionOf (actionJson d a) = some a := by
  rw [actionJson, JsonValue.ofFields, actionOf,
    required_eq JsonValue.asText? _ List.lookup_cons_self,
    optional_eq d "seasonings" ?_ (ingredientsOf_list d a.seasonings) eq_nil_of_isBlank]
  all_goals rfl

/-- So are several actions. -/
theorem actionsOf_list (actions : List (Action String)) :
    actionsOf (.list (actions.map (actionJson d))) = some actions :=
  mapM_map_eq_some fun a _ => actionOf_actionJson d a

/-- In every detail a tree is read back from its value. -/
theorem treeOf_treeJson (t : StepTree String) : treeOf (treeJson d t) = some t := by
  induction t using StepTree.induct with
  | node actions ingredients size maxDepth paths ih =>
      have hpaths : treesIn (.list (paths.map (treeJson d))) = some paths := by
        rw [treesIn_list]
        exact mapM_map_eq_some ih
      rw [treeJson, treesJson_eq, JsonValue.ofFields, treeOf, pathsOf_eq,
        required_eq JsonValue.asInt? (.int size) rfl,
        required_eq JsonValue.asInt? (.int maxDepth) rfl,
        optional_eq d "actions" ?_ (actionsOf_list d actions) eq_nil_of_isBlank,
        optional_eq d "ingredients" ?_ (ingredientsOf_list d ingredients)
          eq_nil_of_isBlank,
        optional_eq d "paths" ?_ hpaths eq_nil_of_isBlank]
      · rfl
      all_goals simp [List.lookup_append, List.lookup_cons, lookup_field_ne]

/-- In every detail a chart is read back from its value. -/
theorem ofJson?_json (c : Chart) : ofJson? (c.json d) = some c := by
  rw [json, JsonValue.ofFields, ofJson?, required_eq JsonValue.asText? _ List.lookup_cons_self,
    required_eq treeOf (treeJson d c.tree) rfl, treeOf_treeJson]
  rfl

/-- A chart is read back from its text, whatever the detail and the
style. -/
theorem read_text (c : Chart) (s : JsonValue.Style) : read (c.text d s) = some c := by
  rw [read, text, JsonValue.read_written, Option.bind_some, ofJson?_json]

-- ============================================================== objects

/-- The recursion over objects gives what they say. -/
theorem fold_nodeOver (t : TreeObject String) : t.fold nodeOver = .ok t.tree := by
  induction t using TreeObject.induct with
  | node t ih =>
      have hall : TreeObject.foldAll nodeOver t.paths = .ok (t.paths.map TreeObject.tree) := by
        generalize t.paths = ts at ih
        induction ts with
        | nil => rfl
        | cons t ts ihts =>
            rw [List.forall_mem_cons] at ih
            rw [TreeObject.foldAll, ihts ih.2, ih.1]
            rfl
      rw [TreeObject.fold_eq, hall]
      exact congrArg Except.ok t.tree_eq.symm

/-- The chart over objects that are orderly is that of the tree they
hold. -/
theorem assemble_eq {title : String} {t : TreeObject String} (h : t.Orderly) :
    assemble title t = .ok ⟨title, t.tree⟩ := by
  rw [assemble, TreeObject.build_eq_fold h, fold_nodeOver]
  rfl

/-- A node can always be made of its paths, and so no chart over objects
that are not orderly fails for another reason. -/
theorem assemble_eq_missing {title : String} {t : TreeObject String} (h : ¬ t.Orderly) :
    ∃ i, assemble title t = .error (.missingNode i) := by
  have hmake : ∀ n ∈ t.walk, TreeObject.Makes nodeOver (fun _ => True) n :=
    fun n _ below _ _ => ⟨_, rfl, trivial⟩
  obtain ⟨i, hmissing⟩ := TreeObject.build_eq_missing hmake h
  refine ⟨i, ?_⟩
  rw [assemble, hmissing]
  rfl

/-- The chart of a tree has its title and the tree. -/
theorem ofTree_eq (title : String) (t : StepTree String) : ofTree title t = .ok ⟨title, t⟩ := by
  rw [ofTree, assemble_eq t.owned_objects.orderly, StepTree.tree_objects]

-- =========================================================== handing on

/-- A chart is handed on exactly when it is not too deep, and then as its
text. -/
theorem exported_eq_ok_iff {d : Detail} {c : Chart} {s : JsonValue.Style} {text : String} :
    c.exported d s = .ok text ↔ c.tree.nesting ≤ mostNested ∧ text = c.text d s := by
  unfold exported
  by_cases h : c.tree.nesting ≤ mostNested
  · rw [if_pos h, Except.ok.injEq]
    exact ⟨fun htext => ⟨h, htext.symm⟩, fun htext => htext.2.symm⟩
  · rw [if_neg h]
    exact ⟨nofun, fun hboth => absurd hboth.1 h⟩

/-- A chart that was handed on is told by what was handed on. -/
theorem read_exported {d : Detail} {c : Chart} {s : JsonValue.Style} {text : String}
    (h : c.exported d s = .ok text) : read text = some c := by
  rw [(exported_eq_ok_iff.1 h).2, read_text]

/-- The layout with an indentation of so many blanks, or the compact one. -/
def layoutFor : Option Nat → Except JsonValue.IndentError JsonValue.Layout
  | none => .ok .compact
  | some indent => JsonValue.Layout.indented indent

/-- There is a layout for every indentation that is not too wide. -/
theorem exists_layoutFor {indent : Option Nat} (h : ∀ n ∈ indent, n < UInt64.size) :
    ∃ l, layoutFor indent = .ok l := by
  cases indent with
  | none => exact ⟨.compact, rfl⟩
  | some n =>
      have hn : n < UInt64.size := h n rfl
      refine ⟨.lines n, ?_⟩
      rw [layoutFor, JsonValue.Layout.indented, if_neg (by omega), if_neg (by omega)]
      rfl

/-- Under the bounds on depth and width the chart of a tree is handed on, in
every detail and with every indentation, and as a dictionary in any style:
compactly, on one line with blanks or over lines, and in all characters or
in those of ASCII. What is handed on is read back as the title and the
resolved tree; and no other chart has that text in common, in whatever
detail or style it is handed on.

Over any objects that hold the tree the chart is the same, if no path of a
node stands in a path before it; otherwise there is no chart over them. -/
theorem exported_reads_back {r : Registry} {t : StepTree Handle}
    (hminted : ∀ h ∈ t.handles, ∃ text, r.resolve h = .ok text)
    (hnested : t.nesting ≤ mostNested) (title : String) :
    ∃ u : StepTree String, t.traverse r.resolve = .ok u ∧ ofTree title u = .ok ⟨title, u⟩
      ∧ (∀ o : TreeObject String, o.tree = u →
          (o.Orderly → assemble title o = .ok ⟨title, u⟩)
            ∧ (¬ o.Orderly → ∃ i, assemble title o = .error (.missingNode i)))
      ∧ (∀ (d : Detail) (indent : Option Nat), (∀ n ∈ indent, n < UInt64.size) →
          ∃ l text, layoutFor indent = .ok l ∧ exported d ⟨title, u⟩ { layout := l } = .ok text
            ∧ read text = some ⟨title, u⟩)
      ∧ (∃ text, dictionary ⟨title, u⟩ = .ok text ∧ read text = some ⟨title, u⟩)
      ∧ (∀ (d : Detail) (s : JsonValue.Style), ∃ text, exported d ⟨title, u⟩ s = .ok text
          ∧ read text = some ⟨title, u⟩)
      ∧ ∀ (d d' : Detail) (s s' : JsonValue.Style) (text title' : String) (u' : StepTree String),
          exported d ⟨title, u⟩ s = .ok text → exported d' ⟨title', u'⟩ s' = .ok text →
          title' = title ∧ u' = u := by
  obtain ⟨u, hu⟩ := StepTree.exists_traverse_iff.2 hminted
  have hexported : ∀ (d : Detail) (s : JsonValue.Style),
      exported d ⟨title, u⟩ s = .ok (text d ⟨title, u⟩ s) := fun d s =>
    exported_eq_ok_iff.2 ⟨StepTree.nesting_of_traverse hu ▸ hnested, rfl⟩
  refine ⟨u, hu, ofTree_eq title u, ?_, fun d indent hindent => ?_,
    ⟨_, hexported _ _, read_exported (hexported _ _)⟩,
    fun d s => ⟨_, hexported d s, read_exported (hexported d s)⟩,
    fun d d' s s' text title' u' h h' => ?_⟩
  · rintro o rfl
    exact ⟨assemble_eq, assemble_eq_missing⟩
  · obtain ⟨l, hl⟩ := exists_layoutFor hindent
    exact ⟨l, _, hl, hexported d _, read_exported (hexported d _)⟩
  · have hboth := (read_exported h').symm.trans (read_exported h)
    cases hboth
    exact ⟨rfl, rfl⟩

/-- A registry that knows the texts of the eggs below. -/
def friedTexts : Registry where
  strings := ["fried", "eggs", "2", "fry", "butter"]

/-- Two eggs, fried with butter. -/
def friedEggs : StepTree Handle :=
  .node [] [] 1 1 [.node [⟨⟨3⟩, [⟨⟨4⟩, none⟩]⟩] [⟨⟨1⟩, some ⟨2⟩⟩] 1 1 []]

/-- The fried eggs are read back from their text over lines of two blanks
and from their dictionary. -/
theorem exported_reads_back_eggs :
    (∀ h ∈ friedEggs.handles, ∃ text, friedTexts.resolve h = .ok text)
      ∧ friedEggs.nesting ≤ mostNested ∧ ∃ u, friedEggs.traverse friedTexts.resolve = .ok u
        ∧ (∃ l text, layoutFor (some 2) = .ok l
          ∧ exported .brief ⟨"fried", u⟩ { layout := l } = .ok text
          ∧ read text = some ⟨"fried", u⟩)
        ∧ ∃ text, dictionary ⟨"fried", u⟩ = .ok text ∧ read text = some ⟨"fried", u⟩ := by
  have hminted : ∀ h ∈ friedEggs.handles, ∃ text, friedTexts.resolve h = .ok text := by
    intro h hh
    have hknown : h ∈ [(⟨3⟩ : Handle), ⟨4⟩, ⟨1⟩, ⟨2⟩] := hh
    simp only [List.mem_cons, List.not_mem_nil, or_false] at hknown
    rcases hknown with rfl | rfl | rfl | rfl
    all_goals exact ⟨_, rfl⟩
  have hnested : friedEggs.nesting ≤ mostNested := by decide
  obtain ⟨u, hu, -, -, hlaid, hdictionary, -⟩ := exported_reads_back hminted hnested "fried"
  exact ⟨hminted, hnested, u, hu, hlaid .brief (some 2) (by decide), hdictionary⟩

-- ============================================================ too deep

/-- An egg with so many nodes around it, each with a single path. -/
def tower : Nat → StepTree Handle
  | 0 => .node [] [⟨⟨1⟩, none⟩] 1 0 []
  | n + 1 => .node [] [] 1 0 [tower n]

theorem handles_tower (n : Nat) : (tower n).handles = [⟨1⟩] := by
  induction n with
  | zero => rfl
  | succ n ih =>
      rw [tower, StepTree.handles_node, List.flatMap_singleton, ih]
      rfl

/-- A tower is as deep as it is high, and one more for the egg. -/
theorem nesting_tower (n : Nat) : (tower n).nesting = n + 1 := by
  induction n with
  | zero => rfl
  | succ n ih => rw [tower, StepTree.nesting, StepTree.nestingAll, StepTree.nestingAll, ih]; rfl

/-- An egg that stands in two places under one node. -/
def twinEgg : TreeObject String :=
  let egg : TreeObject String := .node 1 [] [⟨"eggs", none⟩] 1 0 []
  .node 0 [] [] 2 0 [egg, egg]

/-- There are trees that are too deep to be handed on, and indentations
that are too wide. And where an object stands in two places, there may be no
chart to hand on. -/
theorem not_exported_tower :
    (∀ h ∈ (tower 254).handles, ∃ text, friedTexts.resolve h = .ok text)
      ∧ (∃ u, (tower 254).traverse friedTexts.resolve = .ok u
        ∧ ∀ s, exported .brief ⟨"tower", u⟩ s = .error {}
          ∧ exported .full ⟨"tower", u⟩ s = .error {})
      ∧ layoutFor (some UInt64.size) = .error .tooWide
      ∧ assemble "twins" twinEgg = .error (.missingNode 1) := by
  have hminted : ∀ h ∈ (tower 254).handles, ∃ text, friedTexts.resolve h = .ok text := by
    rw [handles_tower, List.forall_mem_singleton]
    exact ⟨"eggs", rfl⟩
  obtain ⟨u, hu⟩ := StepTree.exists_traverse_iff.2 hminted
  have hdeep : ¬ u.nesting ≤ mostNested := by
    rw [StepTree.nesting_of_traverse hu, nesting_tower]
    decide
  exact ⟨hminted, ⟨u, hu, fun s => ⟨if_neg hdeep, if_neg hdeep⟩⟩, rfl, rfl⟩

end Chart

end RecipeChart
