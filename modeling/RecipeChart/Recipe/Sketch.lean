/-
Sketches of fragments. A sketch is put together by hand and may have any
part at any place: a rule that starts at `<>`, passes through a group of
ingredients, ends at a step. A fragment leaves no room for that, so a
sketch is read before it is used.

Most sketches read as a fragment. One that ends at a part where no rule
can arrive has gone astray: it is followed up to that part and arrives
nowhere. One that is nothing but a start where no rule can set out says
nothing. Ingredients that reach nothing are an orphan whatever else is
sketched after them. Any other part out of place is refused.
-/
import RecipeChart.Recipe.Listing

namespace RecipeChart

variable {α : Type}

-- =============================================================== parts

/-- Anything that stands in a rule. -/
inductive SketchPart (α : Type) where
  | group (group : Group α)
  | join (ref : JoinRef α)
  | step (step : Step α)
  | done (span : Option Span)
  deriving Repr, DecidableEq

namespace SketchPart

/-- The part as a start. -/
def start? : SketchPart α → Option (Start α)
  | .group g => some (.group g)
  | .join r => some (.join r)
  | .step _ | .done _ => none

def element? : SketchPart α → Option (Element α)
  | .step s => some (.step s)
  | .join r => some (.join r)
  | .group _ | .done _ => none

def finish? : SketchPart α → Option (Finish α)
  | .join r => some (.join r)
  | .done span => some (.done span)
  | .group _ | .step _ => none

/-- Is the part a mention of a join point? -/
def isJoin : SketchPart α → Bool
  | .join _ => true
  | _ => false

/-- How the part reads in a rule. -/
def text : SketchPart String → String
  | .group g => g.text
  | .join r => r.text
  | .step s => s.text
  | .done span => (Finish.done span).text

end SketchPart

/-- The start as a part. -/
def Start.part : Start α → SketchPart α
  | .group g => .group g
  | .join r => .join r

def Element.part : Element α → SketchPart α
  | .step s => .step s
  | .join r => .join r

def Finish.part : Finish α → SketchPart α
  | .join r => .join r
  | .done span => .done span

-- ============================================================= sketches

/-- A rule put together by hand. -/
structure Sketch (α : Type) where
  start : SketchPart α
  body : List (SketchPart α) := []
  finish : Option (SketchPart α) := none
  deriving Repr, DecidableEq

/-- What a sketch reads as. -/
inductive Reading (α : Type) where
  | fragment (fragment : Fragment α)
  /-- A rule that ends where none can arrive. -/
  | astray (start : Start α) (body : List (Element α))
  | nothing
  deriving Repr, DecidableEq

/-- The fragment as a sketch. -/
def Fragment.sketch (f : Fragment α) : Sketch α :=
  ⟨f.start.part, f.body.map Element.part, f.finish.map Finish.part⟩

namespace Sketch

/-- The body, or the first part of it that nothing can pass through. -/
def readBody : List (SketchPart α) → Except (SketchPart α) (List (Element α))
  | [] => .ok []
  | part :: parts =>
    match part.element? with
    | some element => (element :: ·) <$> readBody parts
    | none => .error part

/-- Do ingredients start the sketch, and does it reach neither a join nor
an end? -/
def isOrphan (s : Sketch α) : Bool :=
  match s.start with
  | .group _ => s.finish.isNone && s.body.all (!·.isJoin)
  | _ => false

/-- What the sketch reads as, or the first part that is out of place. -/
def read (s : Sketch α) : Except (SketchPart α) (Reading α) :=
  match s.start.start? with
  | none => if s.body.isEmpty && s.finish.isNone then .ok .nothing else .error s.start
  | some start =>
    if s.isOrphan then .ok (.fragment ⟨start, s.body.filterMap SketchPart.element?, none⟩)
    else do
      let body ← readBody s.body
      match s.finish with
      | none => return .fragment ⟨start, body, none⟩
      | some part =>
        match part.finish? with
        | some finish => return .fragment ⟨start, body, some finish⟩
        | none => return .astray start body

/-- The sketch as the rule that writes it. -/
def text (s : Sketch String) : String :=
  ruleText (s.start.text :: s.body.map SketchPart.text ++ s.finish.toList.map SketchPart.text)

end Sketch

-- ============================================================= fragments

@[simp] theorem Start.start?_part (s : Start α) : s.part.start? = some s := by cases s <;> rfl

@[simp] theorem Element.element?_part (e : Element α) : e.part.element? = some e := by
  cases e <;> rfl

@[simp] theorem Finish.finish?_part (f : Finish α) : f.part.finish? = some f := by
  cases f <;> rfl

/-- A body of a fragment reads as itself. -/
theorem Sketch.readBody_map_part (body : List (Element α)) :
    readBody (body.map Element.part) = .ok body := by
  induction body with
  | nil => rfl
  | cons e body ih =>
    rw [List.map_cons, readBody, Element.element?_part, ih]
    rfl

theorem Sketch.filterMap_map_part (body : List (Element α)) :
    (body.map Element.part).filterMap SketchPart.element? = body := by
  induction body with
  | nil => rfl
  | cons e body ih => rw [List.map_cons, List.filterMap_cons, Element.element?_part, ih]

/-- A fragment that is sketched reads as itself. -/
theorem Fragment.read_sketch (f : Fragment α) : f.sketch.read = .ok (.fragment f) := by
  obtain ⟨start, body, finish⟩ := f
  simp only [sketch, Sketch.read, Start.start?_part, Sketch.filterMap_map_part,
    Sketch.readBody_map_part]
  cases finish with
  | none =>
    split
    · rfl
    · rfl
  | some finish =>
    have met : Sketch.isOrphan ⟨start.part, body.map Element.part, some finish.part⟩ = false := by
      cases start <;> rfl
    simp only [Option.map_some, met, Bool.false_eq_true, if_false, Finish.finish?_part]
    rfl

/-- A fragment and its sketch read alike. -/
theorem Fragment.text_sketch (f : Fragment String) : f.sketch.text = f.text := by
  obtain ⟨start, body, finish⟩ := f
  have first : start.part.text = start.text := by cases start <;> rfl
  have middle : SketchPart.text ∘ Element.part = Element.text := by
    funext e
    cases e <;> rfl
  have last :
      (finish.map Finish.part).toList.map SketchPart.text = finish.toList.map Finish.text := by
    cases finish with
    | none => rfl
    | some finish => cases finish <;> rfl
  simp only [sketch, Sketch.text, text, first, List.map_map, middle, last]

end RecipeChart
