/-
Finite directed graphs on numbers, given by their arrows in the order in
which they were drawn. Nothing is assumed of them: several arrows may
leave a node, two may run side by side, an arrow may run in a circle.

The searches keep their bound in view. A search visits a node once and
leaves it along each of its arrows once, so it takes one step more than
there are arrows at most.
-/
namespace RecipeChart

/-- A directed graph: its nodes and its arrows, from source to target. -/
structure Digraph where
  nodes : List Int
  arrows : List (Int × Int)
  deriving Repr, DecidableEq

namespace Digraph

variable (g : Digraph)

-- ========================================================== neighbours

/-- Where the arrows that leave the node lead. -/
def next (v : Int) : List Int := (g.arrows.filter (·.1 = v)).map (·.2)

/-- Where the arrows that enter the node come from. -/
def prev (v : Int) : List Int := (g.arrows.filter (·.2 = v)).map (·.1)

/-- The arrows that leave a node lead to the targets drawn from it. -/
theorem mem_next {v w : Int} : w ∈ g.next v ↔ (v, w) ∈ g.arrows := by
  simp only [next, List.mem_map, List.mem_filter, decide_eq_true_eq]
  constructor
  · intro hmem
    obtain ⟨⟨a, b⟩, ⟨h, rfl⟩, rfl⟩ := hmem
    exact h
  · intro h
    exact ⟨(v, w), ⟨h, rfl⟩, rfl⟩

/-- The arrows that enter a node come from the sources drawn to it. -/
theorem mem_prev {v w : Int} : w ∈ g.prev v ↔ (w, v) ∈ g.arrows := by
  simp only [prev, List.mem_map, List.mem_filter, decide_eq_true_eq]
  constructor
  · intro hmem
    obtain ⟨⟨a, b⟩, ⟨h, rfl⟩, rfl⟩ := hmem
    exact h
  · intro h
    exact ⟨(w, v), ⟨h, rfl⟩, rfl⟩

-- ======================================================== reachability

/-- All that can be reached from the nodes waiting, besides what was seen
before. -/
def closure (step : Int → List Int) : (fuel : Nat) → (waiting seen : List Int) → List Int
  | 0, _, seen => seen
  | _ + 1, [], seen => seen
  | fuel + 1, v :: waiting, seen =>
    if v ∈ seen then closure step fuel waiting seen
    else closure step fuel (step v ++ waiting) (v :: seen)

/-- The node and all that it leads to. -/
def reach (v : Int) : List Int := closure g.next (g.arrows.length + 1) [v] []

/-- The node and all that leads to it. -/
def reachBack (v : Int) : List Int := closure g.prev (g.arrows.length + 1) [v] []

/-- The node and all that is tied to it by arrows of either sense. -/
def component (v : Int) : List Int :=
  closure (fun u => g.next u ++ g.prev u) (2 * g.arrows.length + 1) [v] []

-- =============================================================== loops

/-- What a search for a loop has come to: a loop, or the nodes from which
there is none. -/
inductive Search where
  | loop (around : List Int)
  | clear (done : List Int)
  deriving Repr, DecidableEq

/-- Goes on with the search unless a loop was found. -/
def Search.andThen : Search → (List Int → Search) → Search
  | .loop around, _ => .loop around
  | .clear done, more => more done

/-- Depth first from a node, along its arrows in their order. The path
holds the nodes that led here, nearest first. A node of the path that is
met again closes a loop, which is given from that node on. -/
def search (step : Int → List Int) : (fuel : Nat) → (path done : List Int) → Int → Search
  | 0, _, done, _ => .clear done
  | fuel + 1, path, done, u =>
    let here := u :: path
    let found := (step u).foldl (fun (found : Search) v => found.andThen fun done =>
      if v ∈ here then .loop (v :: (here.takeWhile (· ≠ v)).reverse)
      else if v ∈ done then .clear done
      else search step fuel here done v) (.clear done)
    found.andThen fun done => .clear (u :: done)

/-- The first loop that is met from the node, if it leads to one. -/
def loopFrom? (v : Int) : Option (List Int) :=
  match search g.next (g.arrows.length + 1) [] [] v with
  | .loop around => some around
  | .clear _ => none

/-- The loops met from the starts, each reported for the first start that
leads to it. What an earlier start leads to is not searched again. -/
def loops : (starts reached : List Int) → List (List Int)
  | [], _ => []
  | v :: starts, reached =>
    if v ∈ reached then loops starts reached
    else
      let more := loops starts (reached ++ g.reach v)
      match g.loopFrom? v with
      | some (w :: around) => if w ∈ reached then more else (w :: around) :: more
      | _ => more

-- ================================================================ order

/-- Takes away the first node that no arrow enters, and the arrows that
leave it, again and again. -/
def peel : (fuel : Nat) → (nodes : List Int) → (arrows : List (Int × Int)) → List Int
  | 0, _, _ => []
  | fuel + 1, nodes, arrows =>
    match nodes.find? fun v => arrows.all (·.2 ≠ v) with
    | none => []
    | some v => v :: peel fuel (nodes.erase v) (arrows.filter (·.1 ≠ v))

/-- The nodes in an order in which every arrow leads forward, a smaller
node before a greater one wherever the arrows leave the choice. -/
def order : List Int := peel g.nodes.length (g.nodes.mergeSort (· ≤ ·)) g.arrows

/-- Do the arrows form one tree in which every node has one way on, the
root excepted, and all ways lead to the root? -/
def isInTree : Bool :=
  match g.nodes with
  | [] => false
  | v :: _ =>
    let arrows := g.arrows.eraseDups
    let tied := g.component v
    g.nodes.length = arrows.length + 1
      && g.nodes.all (· ∈ tied)
      && g.nodes.all fun u => (arrows.filter (·.1 = u)).length ≤ 1

end Digraph

end RecipeChart
