/-
A row of a table reads like the recipe. In a placed table many cells of a
row begin in rows above it: the steps of a node stand in the first row of
its block only. What is read in a row is therefore said of all cells that
cross it, from left to right.

The layout of a tree is put together by two moves, and both keep what its
rows read. Below one another, layouts keep their rows, as no cell of the
upper one reaches down. Cells of full height at the right edge come last in
every row. So the rows of a node read like the ways up to it: an ingredient
of a leaf, and the steps of one node after another.
-/
import Mathlib.Data.List.Perm.Basic
import RecipeChart.Proofs.StepTree.Ways
import RecipeChart.Proofs.Table.Tiling

namespace RecipeChart

variable {α : Type}

-- ============================================================ journeys

namespace StepTree

end StepTree

-- ============================================================= reading

/-- Does the cell stand in the row, at least with some part of it? -/
def PlacedCell.crosses (p : PlacedCell α) (r : Nat) : Bool := p.covers r p.column

namespace Table

/-- The cells that stand in the row are, from left to right, these. -/
def Reads (placed : List (PlacedCell α)) (r : Nat) (cells : List (Cell α)) : Prop :=
  ∃ ps : List (PlacedCell α), ps.Perm (placed.filter (·.crosses r))
    ∧ ps.Pairwise (·.column < ·.column) ∧ ps.map (·.cell) = cells

namespace Layout

/-- The cells that stand in a row: those that begin in a row above and
reach down, and those that begin in it. -/
def crossing : Layout α → (r : Nat) → List (Nat × Cell α)
  | [], _ => []
  | row :: _, 0 => row.filter fun p => reaches 0 p.1 p
  | row :: laid, r + 1 => (row.filter fun p => reaches (r + 1) p.1 p) ++ crossing laid r

/-- What is read in a row of a layout. -/
def ReadsAt (laid : Layout α) (r : Nat) (cells : List (Cell α)) : Prop :=
  ∃ ps : List (Nat × Cell α), ps.Perm (laid.crossing r) ∧ ps.Pairwise (·.1 < ·.1)
    ∧ ps.map Prod.snd = cells

/-- The column and the cell. -/
def seat (p : PlacedCell α) : Nat × Cell α := (p.column, p.cell)

/-- Cells keep their columns when they are put into a row. -/
theorem map_seat_put (top : Nat) (row : List (Nat × Cell α)) :
    (row.map (put top)).map seat = row := by
  rw [List.map_map]
  exact List.map_id _

/-- The cells of a layout that cross a row are those that stand in it. -/
theorem map_seat_filter_crosses (top r : Nat) (laid : Layout α) :
    ((cells top laid).filter (·.crosses (top + r))).map seat = laid.crossing r := by
  have hrow : ∀ (top below : Nat) (row : List (Nat × Cell α)),
      ((row.map (put top)).filter (·.crosses (top + below))).map seat
        = row.filter fun p => reaches below p.1 p := by
    intro top below row
    rw [List.filter_map, map_seat_put]
    exact List.filter_congr fun p _ => covers_put top below p.1 p
  -- Rows further down have no cell that reaches up.
  have hlater : ∀ (laid : Layout α) (top r : Nat), r < top →
      (cells top laid).filter (·.crosses r) = [] := by
    intro laid
    induction laid with
    | nil => intro top r _; rfl
    | cons row laid ih =>
        intro top r hr
        rw [cells, List.filter_append, ih (top + 1) r (by omega), List.append_nil,
          List.filter_eq_nil_iff]
        intro p hp
        obtain ⟨q, -, rfl⟩ := List.mem_map.1 hp
        rw [PlacedCell.crosses, covers_put_of_lt hr]
        exact Bool.false_ne_true
  induction laid generalizing top r with
  | nil => cases r <;> rfl
  | cons row laid ih =>
      rw [cells, List.filter_append, List.map_append, hrow]
      cases r with
      | zero => rw [hlater laid (top + 1) (top + 0) (by omega), crossing]; exact List.append_nil _
      | succ r => rw [show top + (r + 1) = top + 1 + r by omega, ih, crossing]

/-- What is read in a row of an exact layout is read in its placed cells. -/
theorem Exact.reads {laid : Layout α} {height width r : Nat} {cells : List (Cell α)}
    (h : Exact laid height width) (hreads : laid.ReadsAt r cells) :
    Reads (place laid.rows) r cells := by
  obtain ⟨ps, hperm, hrising, rfl⟩ := hreads
  have hseats := map_seat_filter_crosses 0 r laid
  rw [Nat.zero_add] at hseats
  rw [← hseats] at hperm
  have hall : List.Forall₂ (fun q p => q = seat p)
      (((Layout.cells 0 laid).filter (·.crosses r)).map seat)
      ((Layout.cells 0 laid).filter (·.crosses r)) := by
    rw [List.forall₂_map_left_iff, List.forall₂_same]
    exact fun p _ => rfl
  obtain ⟨qs, hqs, hperm'⟩ := List.perm_comp_forall₂ hperm hall
  have heq : ps = qs.map seat := by
    rw [← List.forall₂_eq_eq_eq, List.forall₂_map_right_iff]
    exact hqs
  subst heq
  rw [List.pairwise_map] at hrising
  refine ⟨qs, ?_, hrising, ?_⟩
  · rw [h.place_eq]
    exact hperm'
  · rw [List.map_map]
    rfl

-- ============================================================ the moves

/-- What stands in a row lies over a slot of it. -/
theorem layers_pos_of_mem_crossing {laid : Layout α} {r : Nat} {p : Nat × Cell α}
    (h : p ∈ laid.crossing r) : 0 < laid.layers r p.1 := by
  induction laid generalizing r with
  | nil => cases h
  | cons row laid ih =>
      cases r with
      | zero =>
          rw [crossing, List.mem_filter] at h
          rw [layers]
          exact List.countP_pos_iff.2 ⟨p, h.1, h.2⟩
      | succ r =>
          rw [crossing] at h
          rw [layers]
          rcases List.mem_append.1 h with h | h
          · rw [List.mem_filter] at h
            exact Nat.add_pos_left (List.countP_pos_iff.2 ⟨p, h.1, h.2⟩) _
          · exact Nat.add_pos_right _ (ih h)

/-- What stands in a row of an exact layout stands within its rectangle. -/
theorem Exact.lt_of_mem_crossing {laid : Layout α} {height width r : Nat} {p : Nat × Cell α}
    (h : Exact laid height width) (hp : p ∈ laid.crossing r) : r < height ∧ p.1 < width := by
  have hpos := layers_pos_of_mem_crossing hp
  rw [h.layers_eq] at hpos
  by_contra hout
  rw [if_neg hout] at hpos
  omega

/-- What crosses a row of two layouts below one another begins in the upper
one, or in the lower one once the row is there. -/
theorem crossing_append (laid laid' : Layout α) (r : Nat) :
    (laid ++ laid').crossing r
      = laid.crossing r ++ if laid.length ≤ r then laid'.crossing (r - laid.length) else [] := by
  induction laid generalizing r with
  | nil => simp [crossing]
  | cons row laid ih =>
      cases r with
      | zero => rw [List.cons_append, crossing, crossing, if_neg (by simp), List.append_nil]
      | succ r =>
          rw [List.cons_append, crossing, crossing, ih, List.length_cons, List.append_assoc,
            Nat.add_sub_add_right]
          simp only [Nat.add_le_add_iff_right]

/-- Cells of full height at the right edge stand in every row. -/
theorem crossing_widen {laid : Layout α} {height c r : Nat} {cells : List (Cell α)}
    (hne : laid ≠ []) (hr : r < height)
    (hcells : ∀ cell ∈ cells, cell.colspan = 1 ∧ cell.rowspan = height) :
    ((laid.widen c cells).crossing r).Perm (laid.crossing r ++ inColumns c cells) := by
  have hall : (inColumns c cells).filter (fun p => reaches r p.1 p) = inColumns c cells := by
    rw [List.filter_eq_self]
    intro p hp
    have hmem : p.2 ∈ cells := by
      rw [← map_snd_inColumns cells c]
      exact List.mem_map_of_mem hp
    obtain ⟨hcol, hrow⟩ := hcells p.2 hmem
    simp only [reaches, hcol, hrow, Bool.and_eq_true, decide_eq_true_eq]
    omega
  cases laid with
  | nil => exact absurd rfl hne
  | cons row laid =>
      cases r with
      | zero => rw [widen, crossing, crossing, List.filter_append, hall]
      | succ r =>
          rw [widen, crossing, crossing, List.filter_append, hall, List.append_assoc,
            List.append_assoc]
          exact List.perm_append_comm.append_left _

/-- Cells in columns from one on stand there or further right. -/
theorem le_of_mem_inColumns {cells : List (Cell α)} {c : Nat} {p : Nat × Cell α}
    (h : p ∈ inColumns c cells) : c ≤ p.1 := by
  induction cells generalizing c with
  | nil => cases h
  | cons cell cells ih =>
      rcases List.mem_cons.1 h with rfl | h
      · exact Nat.le_refl _
      · exact Nat.le_of_succ_le (ih h)

/-- Cells side by side stand in rising columns. -/
theorem rising_inColumns (cells : List (Cell α)) (c : Nat) :
    (inColumns c cells).Pairwise (·.1 < ·.1) := by
  induction cells generalizing c with
  | nil => exact List.Pairwise.nil
  | cons cell cells ih =>
      exact List.pairwise_cons.2 ⟨fun p hp => le_of_mem_inColumns hp, ih (c + 1)⟩

/-- Does the row of a layout begin with the cell that is read first? -/
def Heads (laidRow : List (Nat × Cell α)) (row : List (Cell α)) : Prop :=
  ∃ cell, laidRow.head?.map Prod.snd = some cell ∧ row.head? = some cell

/-- A row has the same first cell with more behind it. -/
theorem Heads.append {laidRow : List (Nat × Cell α)} {row : List (Cell α)} (h : Heads laidRow row)
    (more : List (Nat × Cell α)) (cells : List (Cell α)) :
    Heads (laidRow ++ more) (row ++ cells) := by
  obtain ⟨cell, hlaid, hrow⟩ := h
  refine ⟨cell, ?_, ?_⟩
  · cases laidRow with
    | nil => cases hlaid
    | cons p laidRow => exact hlaid
  · cases row with
    | nil => cases hrow
    | cons first row => exact hrow

/-- Do the rows of the layout read like these, and begin with the cells that
are read first in them? -/
structure Shows (laid : Layout α) (rows : List (List (Cell α))) : Prop where
  heads : List.Forall₂ Heads laid rows
  reads : ∀ r row, rows[r]? = some row → laid.ReadsAt r row

theorem Shows.nil : Shows ([] : Layout α) [] :=
  ⟨.nil, fun r row h => by rw [List.getElem?_nil] at h; cases h⟩

/-- Below one another, layouts keep what their rows read. -/
theorem Shows.append {laid laid' : Layout α} {rows rows' : List (List (Cell α))}
    {height width : Nat} (hexact : Exact laid height width) (h : Shows laid rows)
    (h' : Shows laid' rows') : Shows (laid ++ laid') (rows ++ rows') := by
  have hlength := h.heads.length_eq
  refine ⟨List.rel_append h.heads h'.heads, fun r row hget => ?_⟩
  rw [ReadsAt, crossing_append]
  by_cases hr : r < rows.length
  · rw [List.getElem?_append_left hr] at hget
    rw [if_neg (by omega), List.append_nil]
    exact h.reads r row hget
  · have hnone : laid.crossing r = [] := by
      refine List.eq_nil_iff_forall_not_mem.2 fun p hp => ?_
      have := (hexact.lt_of_mem_crossing hp).1
      rw [← hexact.length_eq] at this
      omega
    rw [List.getElem?_append_right (by omega), ← hlength] at hget
    rw [if_pos (by omega), hnone, List.nil_append]
    exact h'.reads _ row hget

/-- Cells of full height at the right edge come last in every row. -/
theorem Shows.widen {laid : Layout α} {rows : List (List (Cell α))} {height width : Nat}
    (hexact : Exact laid height width) (h : Shows laid rows) {cells : List (Cell α)}
    (hcells : ∀ cell ∈ cells, cell.colspan = 1 ∧ cell.rowspan = height) :
    Shows (laid.widen width cells) (rows.map (· ++ cells)) := by
  have hlength := h.heads.length_eq
  constructor
  · rw [List.forall₂_map_right_iff]
    obtain ⟨heads, -⟩ := h
    cases heads with
    | nil => exact .nil
    | cons hhead htail =>
        refine .cons (hhead.append _ cells) (htail.imp fun laidRow row hpair => ?_)
        have hsame := hpair.append [] cells
        rwa [List.append_nil] at hsame
  · intro r row hget
    rw [List.getElem?_map, Option.map_eq_some_iff] at hget
    obtain ⟨row, hget, rfl⟩ := hget
    -- Any other cell of the row ends before the column of the new ones.
    obtain ⟨ps, hperm, hrising, rfl⟩ := h.reads r row hget
    have hr : r < height := by
      have := (List.getElem?_eq_some_iff.1 hget).1
      rw [← hlength, hexact.length_eq] at this
      exact this
    have hne : laid ≠ [] := by
      intro hnil
      have := hexact.length_eq
      rw [hnil, List.length_nil] at this
      omega
    refine ⟨ps ++ inColumns width cells, ?_, ?_, ?_⟩
    · exact (hperm.append_right _).trans (crossing_widen hne hr hcells).symm
    · refine List.pairwise_append.2 ⟨hrising, rising_inColumns cells width, fun p hp q hq => ?_⟩
      exact Nat.lt_of_lt_of_le (hexact.lt_of_mem_crossing (hperm.mem_iff.1 hp)).2
        (le_of_mem_inColumns hq)
    · rw [List.map_append, map_snd_inColumns]

-- ============================================================ the tree

/-- What is read in a row of an exact layout is read in its placed cells,
and begins in the row itself. -/
theorem Shows.row {laid : Layout α} {rows : List (List (Cell α))} {height width n : Nat}
    (h : Shows laid rows) (hexact : Exact laid height width) {cell : Cell α}
    {cells : List (Cell α)} (hn : rows[n]? = some (cell :: cells)) :
    (∃ rest, laid.rows[n]? = some (cell :: rest)) ∧ Reads (place laid.rows) n (cell :: cells) := by
  refine ⟨?_, hexact.reads (h.reads n _ hn)⟩
  obtain ⟨hrows, hget⟩ := List.getElem?_eq_some_iff.1 hn
  have hlaid : n < laid.length := h.heads.length_eq.symm ▸ hrows
  obtain ⟨first, hfirst, hhead⟩ := h.heads.get hlaid hrows
  rw [List.get_eq_getElem, hget] at hhead
  cases hhead
  obtain ⟨p, hp, rfl⟩ := Option.map_eq_some_iff.1 hfirst
  obtain ⟨more, hmore⟩ := List.head?_eq_some_iff.1 hp
  refine ⟨more.map Prod.snd, ?_⟩
  rw [List.get_eq_getElem] at hmore
  rw [Layout.rows, List.getElem?_map, List.getElem?_eq_getElem hlaid, hmore]
  rfl

end Layout

-- ============================================================ the table

end Table

end RecipeChart
