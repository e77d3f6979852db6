/-
Cells placed on a grid. A table says of a cell only in which row it
begins and how far it reaches; in which column it comes to stand follows
from the cells before it. The rows are filled from top to bottom, each
from left to right, and a cell begins at the first column of its row that
no earlier cell covers, be it a cell of the same row or one of an earlier
row that reaches down.

Beside the filling stand layouts: rows whose cells have their column
written next to them. A layout is exact for a rectangle when every slot of
the rectangle lies under one cell, no slot outside of it under any, and
every row runs from left to right. Then the columns need not be written:
the filling finds them again, because all slots to the left of a cell are
covered by cells that come before it.
-/
import Mathlib.Data.Nat.Find
import RecipeChart.Table

namespace RecipeChart

variable {α : Type}

-- ============================================================= filling

/-- A cell and the slot of its upper left corner, rows and columns
counted from zero. -/
structure PlacedCell (α : Type) where
  cell : Cell α
  row : Nat
  column : Nat

/-- Does the placed cell cover the slot? -/
def PlacedCell.covers (p : PlacedCell α) (r c : Nat) : Bool :=
  p.row ≤ r && (r : Int) < p.row + p.cell.rowspan
    && p.column ≤ c && (c : Int) < p.column + p.cell.colspan

namespace Table

/-- Does one of the cells cover the slot? -/
def isTaken (placed : List (PlacedCell α)) (r c : Nat) : Bool :=
  placed.any (·.covers r c)

/-- Far enough to the right no slot is taken. -/
theorem exists_not_taken (placed : List (PlacedCell α)) (r : Nat) :
    ∃ c, isTaken placed r c = false := by
  have hbound : ∃ b : Nat, ∀ p ∈ placed, (p.column : Int) + p.cell.colspan ≤ b := by
    induction placed with
    | nil => exact ⟨0, fun p hp => absurd hp List.not_mem_nil⟩
    | cons q placed ih =>
        obtain ⟨b, hb⟩ := ih
        refine ⟨max b (q.column + q.cell.colspan).toNat, fun p hp => ?_⟩
        rcases List.mem_cons.1 hp with rfl | hp
        · omega
        · have := hb p hp
          omega
  obtain ⟨b, hb⟩ := hbound
  refine ⟨b, List.any_eq_false.2 fun p hp hcovers => ?_⟩
  simp only [PlacedCell.covers, Bool.and_eq_true, decide_eq_true_eq] at hcovers
  have := hb p hp
  omega

/-- The leftmost column of the row that no cell covers. -/
def freeColumn (placed : List (PlacedCell α)) (r : Nat) : Nat :=
  Nat.find (exists_not_taken placed r)

/-- The cells of a row placed one after another, each at the leftmost
column that is free by then. -/
def placeRow (r : Nat) : List (PlacedCell α) → List (Cell α) → List (PlacedCell α)
  | placed, [] => placed
  | placed, cell :: cells => placeRow r (placed ++ [⟨cell, r, freeColumn placed r⟩]) cells

/-- The cells of the rows placed row after row, the first row at the
given number. -/
def placeFrom (r : Nat) : List (PlacedCell α) → List (List (Cell α)) → List (PlacedCell α)
  | placed, [] => placed
  | placed, row :: rows => placeFrom (r + 1) (placeRow r placed row) rows

/-- The cells of all rows, each in its place. -/
def place (rows : List (List (Cell α))) : List (PlacedCell α) := placeFrom 0 [] rows

/-- Rows whose cells have their column beside them. -/
abbrev Layout (α : Type) := List (List (Nat × Cell α))

/-- Does the cell reach the column, so many rows below the row in which
it begins? -/
def reaches (below c : Nat) (p : Nat × Cell α) : Bool :=
  (below : Int) < p.2.rowspan && p.1 ≤ c && (c : Int) < p.1 + p.2.colspan

namespace Layout

/-- The rows, the columns forgotten. -/
def rows (laid : Layout α) : List (List (Cell α)) := laid.map (·.map Prod.snd)

/-- A cell of the row in its place. -/
def put (r : Nat) (p : Nat × Cell α) : PlacedCell α := ⟨p.2, r, p.1⟩

/-- The cells in their places, the first row at the given number. -/
def cells (r : Nat) : Layout α → List (PlacedCell α)
  | [] => []
  | row :: laid => row.map (put r) ++ cells (r + 1) laid

/-- How many cells lie over the slot. -/
def layers : Layout α → (r c : Nat) → Nat
  | [], _, _ => 0
  | row :: _, 0, c => row.countP (reaches 0 c)
  | row :: laid, r + 1, c => row.countP (reaches (r + 1) c) + layers laid r c

theorem covers_put (top below c : Nat) (p : Nat × Cell α) :
    (put top p).covers (top + below) c = reaches below c p := by
  have hrow : decide (((top + below : Nat) : Int) < top + p.2.rowspan)
      = decide ((below : Int) < p.2.rowspan) :=
    decide_eq_decide.2 ⟨fun h => by omega, fun h => by omega⟩
  have htop : decide ((put top p).row ≤ top + below) = true :=
    decide_eq_true (Nat.le_add_right top below)
  unfold PlacedCell.covers reaches
  rw [htop, Bool.true_and]
  exact congrArg (fun b => b && decide (p.1 ≤ c) && decide ((c : Int) < p.1 + p.2.colspan)) hrow

theorem covers_put_of_lt {top r : Nat} (h : r < top) (c : Nat) (p : Nat × Cell α) :
    (put top p).covers r c = false := by
  unfold put PlacedCell.covers
  rw [decide_eq_false (Nat.not_le.2 h)]
  rfl

/-- No cell of a layout reaches above its first row. -/
theorem countP_cells_of_lt {top r : Nat} (h : r < top) (c : Nat) (laid : Layout α) :
    (cells top laid).countP (·.covers r c) = 0 := by
  induction laid generalizing top with
  | nil => rfl
  | cons row laid ih =>
      rw [cells, List.countP_append, ih (Nat.lt_succ_of_lt h), List.countP_map, Nat.add_zero]
      refine List.countP_eq_zero.2 fun p _ => ?_
      rw [Function.comp_apply, covers_put_of_lt h]
      exact Bool.false_ne_true

/-- The layers over a slot are the placed cells that cover it. -/
theorem countP_cells (top r c : Nat) (laid : Layout α) :
    (cells top laid).countP (·.covers (top + r) c) = layers laid r c := by
  induction laid generalizing top r with
  | nil => cases r <;> rfl
  | cons row laid ih =>
      have hrow : (row.map (put top)).countP (·.covers (top + r) c)
          = row.countP (reaches r c) := by
        rw [List.countP_map]
        exact congrArg (row.countP ·) (funext fun p => covers_put top r c p)
      rw [cells, List.countP_append, hrow]
      cases r with
      | zero => rw [countP_cells_of_lt (by omega), layers, Nat.add_zero]
      | succ r => rw [show top + (r + 1) = top + 1 + r by omega, ih, layers]

theorem cells_append (top : Nat) (laid laid' : Layout α) :
    cells top (laid ++ laid') = cells top laid ++ cells (top + laid.length) laid' := by
  induction laid generalizing top with
  | nil => rfl
  | cons row laid ih =>
      rw [List.cons_append, cells, cells, ih, List.append_assoc, List.length_cons]
      rw [show top + 1 + laid.length = top + (laid.length + 1) by omega]

/-- The layout covers every slot of the rectangle once and no slot outside
of it, and runs from left to right in every row. -/
structure Exact (laid : Layout α) (height width : Nat) : Prop where
  length_eq : laid.length = height
  layers_eq : ∀ r c, laid.layers r c = if r < height ∧ c < width then 1 else 0
  rising : ∀ row ∈ laid, row.Pairwise (·.1 < ·.1)
  spans : ∀ row ∈ laid, ∀ p ∈ row, 1 ≤ p.2.colspan ∧ 1 ≤ p.2.rowspan

-- ===================================================== filling a layout

/-- The layers over a slot of a row, cut at one of its cells: the cells
that come before it in the filling, and the rest of the row. -/
theorem layers_at (pre : Layout α) (done rest : List (Nat × Cell α)) (post : Layout α) (c : Nat) :
    layers (pre ++ (done ++ rest) :: post) pre.length c
      = (cells 0 pre ++ done.map (put pre.length)).countP (·.covers pre.length c)
        + rest.countP (reaches 0 c) := by
  rw [← countP_cells 0, cells_append, cells, List.map_append]
  simp only [Nat.zero_add, List.countP_append]
  rw [countP_cells_of_lt (Nat.lt_succ_self pre.length), List.countP_map (l := rest)]
  have hrest : rest.countP ((·.covers pre.length c) ∘ put pre.length)
      = rest.countP (reaches 0 c) :=
    congrArg (rest.countP ·) (funext fun p => covers_put pre.length 0 c p)
  omega

theorem isTaken_iff {placed : List (PlacedCell α)} {r c : Nat} :
    isTaken placed r c = true ↔ 0 < placed.countP (·.covers r c) := by
  rw [isTaken, List.any_eq_true, List.countP_pos_iff]

/-- In an exact layout the next cell stands at the leftmost column that
the cells before it leave free. -/
theorem Exact.freeColumn_eq {pre : Layout α} {done rest : List (Nat × Cell α)}
    {p : Nat × Cell α} {post : Layout α} {height width : Nat}
    (h : Exact (pre ++ (done ++ p :: rest) :: post) height width) :
    freeColumn (cells 0 pre ++ done.map (put pre.length)) pre.length = p.1 := by
  have hrow : done ++ p :: rest ∈ pre ++ (done ++ p :: rest) :: post :=
    List.mem_append_right pre List.mem_cons_self
  have hp := h.spans _ hrow p (List.mem_append_right done List.mem_cons_self)
  have hself : reaches 0 p.1 p = true := by
    simp only [reaches, Bool.and_eq_true, decide_eq_true_eq]
    omega
  -- the slot of the cell itself lies in the rectangle, so that row does
  have hcount := layers_at pre done (p :: rest) post
  have hslot := h.layers_eq pre.length p.1
  rw [hcount, List.countP_cons_of_pos hself] at hslot
  have hinside : pre.length < height ∧ p.1 < width := by
    by_contra hout
    rw [if_neg hout] at hslot
    omega
  rw [if_pos hinside] at hslot
  rw [freeColumn, Nat.find_eq_iff]
  constructor
  · rw [← Bool.not_eq_true, isTaken_iff]
    omega
  · intro c hc
    rw [Bool.not_eq_false, isTaken_iff]
    -- neither this cell nor one further right reaches back to the slot
    have hright : (p :: rest).countP (reaches 0 c) = 0 := by
      have hrising := (List.pairwise_append.1 (h.rising _ hrow)).2.1
      refine List.countP_eq_zero.2 fun q hq => ?_
      have hle : p.1 ≤ q.1 := by
        rcases List.mem_cons.1 hq with rfl | hq
        · exact Nat.le_refl _
        · exact Nat.le_of_lt ((List.pairwise_cons.1 hrising).1 q hq)
      simp only [reaches, Bool.and_eq_true, decide_eq_true_eq]
      omega
    have hleft := h.layers_eq pre.length c
    rw [hcount, hright, if_pos ⟨hinside.1, by omega⟩] at hleft
    omega

/-- Filling a row of an exact layout gives back its columns. -/
theorem Exact.placeRow_eq {pre : Layout α} {post : Layout α} {height width : Nat} :
    ∀ {rest done : List (Nat × Cell α)},
      Exact (pre ++ (done ++ rest) :: post) height width →
      placeRow pre.length (cells 0 pre ++ done.map (put pre.length)) (rest.map Prod.snd)
        = cells 0 pre ++ (done ++ rest).map (put pre.length) := by
  intro rest
  induction rest with
  | nil =>
      intro done _
      rw [List.append_nil]
      rfl
  | cons p rest ih =>
      intro done h
      have hdone : done ++ p :: rest = done ++ [p] ++ rest := by simp
      rw [List.map_cons, placeRow, h.freeColumn_eq, hdone, ← ih (hdone ▸ h), List.map_append,
        ← List.append_assoc]
      rfl

/-- Filling the rows of an exact layout gives back the layout. -/
theorem Exact.placeFrom_eq {height width : Nat} :
    ∀ {post pre : Layout α}, Exact (pre ++ post) height width →
      placeFrom pre.length (cells 0 pre) post.rows = cells 0 (pre ++ post) := by
  intro post
  induction post with
  | nil =>
      intro pre _
      rw [List.append_nil]
      rfl
  | cons row post ih =>
      intro pre h
      have hpre : pre ++ row :: post = pre ++ [row] ++ post := by simp
      have hrow : placeRow pre.length (cells 0 pre ++ List.map (put pre.length) [])
          (row.map Prod.snd) = cells 0 pre ++ ([] ++ row).map (put pre.length) :=
        Exact.placeRow_eq h
      rw [List.map_nil, List.append_nil, List.nil_append] at hrow
      have hcells : cells 0 (pre ++ [row]) = cells 0 pre ++ row.map (put pre.length) := by
        rw [cells_append, cells, cells, List.append_nil, Nat.zero_add]
      have hrest := ih (hpre ▸ h)
      rw [List.length_append, List.length_singleton, hcells] at hrest
      rw [rows, List.map_cons, placeFrom, hrow, hpre]
      exact hrest

/-- The filling finds the columns of an exact layout. -/
theorem Exact.place_eq {laid : Layout α} {height width : Nat} (h : Exact laid height width) :
    place laid.rows = cells 0 laid := by
  have hempty : Exact ([] ++ laid) height width := h
  exact hempty.placeFrom_eq

end Layout

end Table

end RecipeChart
