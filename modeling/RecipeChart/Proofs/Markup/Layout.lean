/-
What the layout of an element keeps. It keeps the tags and attributes, the
order of the children, and every text that is not blank; a blank text may
become a line break with an indentation. An element and an element laid out
are compared node by node, so the induction goes over the element, and a
child is given its new tail only after it has been compared.
-/
import RecipeChart.Proofs.Markup.Reading

namespace RecipeChart.Markup

/-- The text is kept, or it was blank and has become a line break. -/
def KeepsText (text text' : String) : Prop :=
  text' = text ∨ (Text.isAllBlank text = true ∧ ∃ level, text' = lineBreak level)

/-- The second element is the first one but for blank texts that have become
line breaks. -/
inductive LaysOut : Node → Node → Prop
  | element {tag : String} {attributes : List (String × String)} {text text' : String}
      {children children' : List Node} {tail tail' : String} (htext : KeepsText text text')
      (hchildren : List.Forall₂ LaysOut children children') (htail : KeepsText tail tail') :
      LaysOut (.element tag attributes text children tail)
        (.element tag attributes text' children' tail')

theorem KeepsText.refl (text : String) : KeepsText text text := .inl rfl

theorem keepsText_orBreak (level : Nat) (text : String) : KeepsText text (orBreak level text) := by
  unfold orBreak
  split
  · next hblank => exact .inr ⟨hblank, level, rfl⟩
  · exact .refl text

theorem LaysOut.withTail {n n' : Node} {tail : String} (h : LaysOut n n')
    (htail : KeepsText n.tail tail) : LaysOut n (n'.withTail tail) := by
  cases h with
  | element htext hchildren _ => exact .element htext hchildren htail

/-- An element is laid out without loss. -/
theorem laysOut_laidOut (n : Node) (level : Nat) : LaysOut n (n.laidOut level) := by
  induction n using Node.induct generalizing level with
  | element tag attributes text children tail ih =>
      have htext :
          KeepsText text (if children.isEmpty then text else orBreak (level + 1) text) := by
        split
        · exact .refl text
        · exact keepsText_orBreak _ text
      have hchildren : List.Forall₂ LaysOut children (laidOutAll level children) := by
        clear htext
        induction children with
        | nil => exact .nil
        | cons n ns ihns =>
            rw [List.forall_mem_cons] at ih
            exact .cons ((ih.1 _).withTail (keepsText_orBreak _ _)) (ihns ih.2)
      exact .element htext hchildren (.refl tail)

/-- The layout keeps the tags. -/
theorem LaysOut.tags_eq {n n' : Node} (h : LaysOut n n') : n'.tags = n.tags := by
  induction n using Node.induct generalizing n' with
  | element tag attributes text children tail ih =>
      cases h with
      | @element _ _ _ _ _ children' _ _ _ hchildren _ =>
        have hall : children'.flatMap Node.tags = children.flatMap Node.tags := by
          induction hchildren with
          | nil => rfl
          | cons hn _ ihns =>
              rw [List.forall_mem_cons] at ih
              rw [List.flatMap_cons, List.flatMap_cons, ih.1 hn, ihns ih.2]
        rw [Node.tags_element, Node.tags_element, hall]

end RecipeChart.Markup
