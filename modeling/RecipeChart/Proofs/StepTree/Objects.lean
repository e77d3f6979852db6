/-
What a run over objects builds. The objects of a tree are taken from the
last to the first, so that all below an object is done before it comes up.
What one object leaves behind is told at once for a whole subtree: it takes
away whatever was kept of the objects in it, and puts itself in
(`foldlM_walk`). For a row of subtrees this holds one after another, from
the last to the first, and the ones that are done stay as long as none of
them stands in a subtree that comes up later. That is what it means for the
objects to be orderly, so a run over orderly objects is the recursion over
the tree (`build_eq_fold`); and a run that comes to an end had them orderly
(`orderly_of_build`), as the paths of every node were there to be taken.

Objects that have one place each are orderly. Those of a tree that was
built are numbered one by one, and so they have one place each.
-/
import RecipeChart.Proofs.Repeats
import RecipeChart.Proofs.Traversal
import RecipeChart.StepTree.Objects

namespace RecipeChart

variable {α β : Type}

-- ============================================================ what is kept

namespace Held

/-- The identities that something is kept of. -/
def keys (k : Held β) : List Nat := k.map Prod.fst

/-- Something is kept still of what it was kept of, the ones that are left
out apart. -/
theorem mem_keys_without {k : Held β} {ids : List Nat} {i : Nat} :
    i ∈ (k.without ids).keys ↔ i ∈ k.keys ∧ i ∉ ids := by
  simp only [keys, without, List.mem_map, List.mem_filter, decide_eq_true_eq]
  constructor
  · rintro ⟨p, ⟨hp, hids⟩, rfl⟩
    exact ⟨⟨p, hp, rfl⟩, hids⟩
  · rintro ⟨⟨p, hp, rfl⟩, hids⟩
    exact ⟨p, ⟨hp, hids⟩, rfl⟩

/-- To leave out some, and then others, is to leave out both. -/
theorem without_without (k : Held β) (ids ids' : List Nat) :
    (k.without ids).without ids' = k.without (ids' ++ ids) := by
  rw [without, without, without, List.filter_filter]
  refine List.filter_congr fun p _ => ?_
  simp only [List.mem_append, not_or, Bool.decide_and]

/-- Nothing is lost if nothing is kept of the objects. -/
theorem without_eq_self {k : Held β} {ids : List Nat} (h : ∀ i ∈ k.keys, i ∉ ids) :
    k.without ids = k :=
  List.filter_eq_self.2 fun p hp => decide_eq_true (h p.1 (List.mem_map_of_mem hp))

theorem find_cons_self (k : Held β) (i : Nat) (b : β) : find ((i, b) :: k) i = .ok b := by
  rw [find, List.lookup_cons_self]

theorem find_cons_ne {i j : Nat} (h : j ≠ i) (k : Held β) (b : β) :
    find ((i, b) :: k) j = k.find j := by
  rw [find, find, List.lookup_cons, beq_false_of_ne h]

/-- What is found was kept. -/
theorem mem_of_find {k : Held β} {i : Nat} {b : β} (h : k.find i = .ok b) : (i, b) ∈ k := by
  unfold find at h
  cases hlookup : k.lookup i with
  | none =>
      rw [hlookup] at h
      cases h
  | some b' =>
      rw [hlookup] at h
      cases h
      exact mem_of_lookup hlookup

/-- Something is found exactly of the objects that something is kept of. -/
theorem exists_find_iff {k : Held β} {i : Nat} : (∃ b, k.find i = .ok b) ↔ i ∈ k.keys := by
  induction k with
  | nil => exact ⟨fun ⟨b, h⟩ => (nomatch h), fun h => (nomatch h)⟩
  | cons p k ih =>
      rw [keys, List.map_cons, List.mem_cons]
      by_cases h : i = p.1
      · subst h
        exact iff_of_true ⟨p.2, find_cons_self k p.1 p.2⟩ (.inl rfl)
      · rw [show p = (p.1, p.2) from rfl, find_cons_ne h, ih]
        exact ⟨.inr, fun hor => hor.resolve_left h⟩

/-- What is not found is missing. -/
theorem find_eq_error {k : Held β} {i : Nat} (h : i ∉ k.keys) :
    k.find i = .error (.missingNode i) := by
  cases hfound : k.find i with
  | ok b => exact absurd (exists_find_iff.1 ⟨b, hfound⟩) h
  | error e =>
      unfold find at hfound
      cases hlookup : k.lookup i with
      | some b =>
          rw [hlookup] at hfound
          cases hfound
      | none =>
          rw [hlookup] at hfound
          cases hfound
          rfl

/-- Of several objects the first is found and left out before the rest are
collected. -/
theorem collect_cons {k : Held β} {t : TreeObject α} {b : β} (h : k.find t.id = .ok b)
    (ts : List (TreeObject α)) :
    k.collect (t :: ts)
      = (collect (k.without [t.id]) ts).map fun found => (b :: found.1, found.2) := by
  rw [collect, h]
  show (collect (k.without [t.id]) ts >>= fun found => _) = _
  cases collect (k.without [t.id]) ts <;> rfl

/-- Objects are collected exactly if something is kept of each, and none is
wanted twice; otherwise one of them is missing. -/
theorem collect_cases (ts : List (TreeObject α)) : ∀ k : Held β,
    (∃ found, k.collect ts = .ok found ∧ (ts.map TreeObject.id).Nodup ∧ ∀ t ∈ ts, t.id ∈ k.keys)
      ∨ (∃ i, k.collect ts = .error (.missingNode i))
        ∧ ¬ ((ts.map TreeObject.id).Nodup ∧ ∀ t ∈ ts, t.id ∈ k.keys) := by
  induction ts with
  | nil => exact fun k => .inl ⟨_, rfl, List.nodup_nil, fun t ht => (nomatch ht)⟩
  | cons t ts ih =>
      intro k
      rw [List.map_cons, List.nodup_cons, List.forall_mem_cons]
      by_cases hkey : t.id ∈ k.keys
      · obtain ⟨b, hb⟩ := exists_find_iff.2 hkey
        rw [collect_cons hb]
        have hrest : ((ts.map TreeObject.id).Nodup ∧ ∀ u ∈ ts, u.id ∈ (k.without [t.id]).keys)
            ↔ (t.id ∉ ts.map TreeObject.id ∧ (ts.map TreeObject.id).Nodup)
              ∧ t.id ∈ k.keys ∧ ∀ u ∈ ts, u.id ∈ k.keys := by
          simp only [mem_keys_without, List.mem_singleton, List.mem_map, not_exists, not_and]
          exact ⟨fun h => ⟨⟨fun u hu => (h.2 u hu).2, h.1⟩, hkey, fun u hu => (h.2 u hu).1⟩,
            fun h => ⟨h.1.2, fun u hu => ⟨h.2.2 u hu, h.1.1 u hu⟩⟩⟩
        rcases ih (k.without [t.id]) with ⟨found, hfound, hall⟩ | ⟨⟨i, hfound⟩, hnot⟩
        · rw [hfound]
          exact .inl ⟨_, rfl, hrest.1 hall⟩
        · rw [hfound]
          exact .inr ⟨⟨i, rfl⟩, fun hall => hnot (hrest.2 hall)⟩
      · refine .inr ⟨⟨t.id, ?_⟩, fun h => hkey h.2.1⟩
        rw [collect, find_eq_error hkey]
        rfl

/-- Objects that were collected are different ones, and something was kept
of each. -/
theorem keys_of_collect {k : Held β} {ts : List (TreeObject α)} {found : List β × Held β}
    (h : k.collect ts = .ok found) :
    (ts.map TreeObject.id).Nodup ∧ ∀ t ∈ ts, t.id ∈ k.keys := by
  rcases collect_cases ts k with ⟨_, -, hall⟩ | ⟨⟨i, herror⟩, -⟩
  · exact hall
  · cases h.symm.trans herror

/-- What was put in for the objects themselves is collected, and the rest
stays. -/
theorem collect_zip {ts : List (TreeObject α)} : ∀ {bs : List β} {k : Held β},
    bs.length = ts.length → (ts.map TreeObject.id).Nodup →
    (∀ i ∈ k.keys, i ∉ ts.map TreeObject.id) →
    Held.collect ((ts.map TreeObject.id).zip bs ++ k) ts = .ok (bs, k) := by
  induction ts with
  | nil =>
      intro bs k hlength _ _
      rw [List.length_nil] at hlength
      rw [List.length_eq_zero_iff.1 hlength]
      rfl
  | cons t ts ih =>
      intro bs k hlength hnodup hk
      cases bs with
      | nil => cases hlength
      | cons b bs =>
          rw [List.map_cons, List.nodup_cons] at hnodup
          simp only [List.map_cons, List.mem_cons, not_or] at hk
          rw [List.map_cons, List.zip_cons_cons, List.cons_append,
            collect_cons (find_cons_self _ _ b)]
          -- No other entry has the number of the one that was just taken out.
          have hleft : Held.without (((t.id, b) :: ((ts.map TreeObject.id).zip bs ++ k)) : Held β)
              [t.id] = (ts.map TreeObject.id).zip bs ++ k := by
            rw [without, List.filter_cons, if_neg (by simp)]
            refine without_eq_self fun i hi => ?_
            rw [List.mem_singleton]
            rintro rfl
            rw [keys, List.map_append, List.mem_append] at hi
            rcases hi with hi | hi
            · obtain ⟨p, hp, hid⟩ := List.mem_map.1 hi
              exact hnodup.1 (hid ▸ (List.of_mem_zip hp).1)
            · exact (hk _ hi).1 rfl
          rw [hleft, ih (Nat.succ.inj hlength) hnodup.2 fun i hi => (hk i hi).2]
          rfl

end Held

-- ============================================================= ownership

namespace TreeObject

/-- Induction over an object and all below it. -/
theorem induct {motive : TreeObject α → Prop}
    (node : ∀ t : TreeObject α, (∀ p ∈ t.paths, motive p) → motive t) (t : TreeObject α) :
    motive t := by
  refine @TreeObject.rec α motive (fun ts => ∀ p ∈ ts, motive p)
    (fun id actions ingredients size maxDepth paths h => node _ h)
    (fun p hp => nomatch hp) (fun t ts ht hts p hp => ?_) t
  rcases List.mem_cons.1 hp with rfl | hp
  · exact ht
  · exact hts p hp

/-- What an object says is its own part and what its paths say. -/
theorem tree_eq (t : TreeObject α) :
    t.tree = .node t.tree.actions t.tree.ingredients t.tree.size t.tree.maxDepth
      (t.paths.map tree) := by
  cases t with
  | node id actions ingredients size maxDepth paths => rw [tree, trees_eq]; rfl

@[simp] theorem paths_tree (t : TreeObject α) : t.tree.paths = t.paths.map tree := by
  rw [tree_eq]
  rfl

theorem id_mem_ids (t : TreeObject α) : t.id ∈ t.ids := by
  rw [ids_eq_cons]
  exact List.mem_cons_self

/-- Objects are orderly if those of every path are, and no path stands in
one before it. -/
theorem orderly_iff {t : TreeObject α} :
    t.Orderly ↔ (∀ p ∈ t.paths, p.Orderly) ∧ t.paths.Pairwise fun p q => q.id ∉ p.ids := by
  rw [Orderly, walk_eq_cons, List.forall_mem_cons, and_comm]
  refine and_congr_left fun _ => ⟨fun h p hp n hn => h n (List.mem_flatMap.2 ⟨p, hp, hn⟩), ?_⟩
  intro h n hn
  obtain ⟨p, hp, hn⟩ := List.mem_flatMap.1 hn
  exact h p hp n hn

/-- Every object has one place if this holds in every path, the paths share
none, and none is the object above. -/
theorem owned_iff {t : TreeObject α} :
    t.Owned ↔ (∀ p ∈ t.paths, t.id ∉ p.ids ∧ p.Owned)
      ∧ t.paths.Pairwise fun p q => List.Disjoint p.ids q.ids := by
  rw [Owned, ids_eq_cons, List.nodup_cons, List.nodup_flatMap, List.mem_flatMap]
  constructor
  · rintro ⟨hid, hpaths, hpairs⟩
    exact ⟨fun p hp => ⟨fun h => hid ⟨p, hp, h⟩, hpaths p hp⟩, hpairs⟩
  · rintro ⟨hpaths, hpairs⟩
    exact ⟨fun ⟨p, hp, h⟩ => (hpaths p hp).1 h, fun p hp => (hpaths p hp).2, hpairs⟩

/-- Objects that have one place each are orderly. -/
theorem Owned.orderly {t : TreeObject α} (h : t.Owned) : t.Orderly := by
  induction t using induct with
  | node t ih =>
      obtain ⟨hpaths, hpairs⟩ := owned_iff.1 h
      refine orderly_iff.2 ⟨fun p hp => ih p hp (hpaths p hp).2, hpairs.imp fun hpq hmem => ?_⟩
      exact hpq hmem (id_mem_ids _)

end TreeObject

-- ==================================================== objects of a tree

namespace StepTree

open TreeObject

/-- The objects of a tree say what the tree says, and they are numbered
through in the order of the walk. -/
theorem objectsFrom_spec (t : StepTree α) : ∀ first,
    (t.objectsFrom first).tree = t
      ∧ (t.objectsFrom first).ids = List.range' first t.walk.length := by
  refine @StepTree.rec α
    (fun t => ∀ first, (t.objectsFrom first).tree = t
      ∧ (t.objectsFrom first).ids = List.range' first t.walk.length)
    (fun ts => ∀ first, trees (objectsAllFrom first ts) = ts
      ∧ (objectsAllFrom first ts).flatMap ids = List.range' first (walkAll ts).length)
    ?_ (fun first => ⟨rfl, rfl⟩) ?_ t
  · intro actions ingredients size maxDepth paths ih first
    obtain ⟨htrees, hids⟩ := ih (first + 1)
    rw [objectsFrom, tree, htrees, ids_eq_cons, TreeObject.paths, hids, TreeObject.id, walk,
      List.length_cons, List.range'_succ]
    exact ⟨rfl, rfl⟩
  · intro t ts ht hts first
    obtain ⟨htree, hid⟩ := ht first
    obtain ⟨htrees, hids⟩ := hts (first + t.walk.length)
    rw [objectsAllFrom, trees, htree, htrees, List.flatMap_cons, hid, hids, walkAll,
      List.length_append, List.range'_append_1]
    exact ⟨rfl, rfl⟩

@[simp] theorem tree_objects (t : StepTree α) : t.objects.tree = t := (objectsFrom_spec t 0).1

/-- A tree that is built owns its nodes. -/
theorem owned_objects (t : StepTree α) : t.objects.Owned := by
  rw [Owned, objects, (objectsFrom_spec t 0).2]
  exact List.nodup_range'

end StepTree

-- =============================================================== the run

namespace TreeObject

open Held

variable (make : TreeObject α → List β → Except Fault β)

mutual

/-- What is made of an object by recursion, the last of its paths first. -/
def fold : TreeObject α → Except Fault β
  | .node id actions ingredients size maxDepth paths => do
    let below ← foldAll paths
    make (.node id actions ingredients size maxDepth paths) below

def foldAll : List (TreeObject α) → Except Fault (List β)
  | [] => .ok []
  | t :: ts => do
    let rest ← foldAll ts
    let first ← fold t
    return first :: rest

end

/-- What is made of an object by recursion is made of what is made of its
paths. -/
theorem fold_eq (t : TreeObject α) : fold make t = foldAll make t.paths >>= make t := by
  cases t with
  | node id actions ingredients size maxDepth paths => rw [fold]; rfl

variable {make}

/-- One thing is made of each path. -/
theorem length_of_foldAll {ts : List (TreeObject α)} : ∀ {bs : List β},
    foldAll make ts = .ok bs → bs.length = ts.length := by
  induction ts with
  | nil =>
      intro bs h
      cases h
      rfl
  | cons t ts ih =>
      intro bs h
      rw [foldAll] at h
      obtain ⟨rest, hrest, h⟩ := bind_eq_ok_iff.1 h
      obtain ⟨first, -, h⟩ := bind_eq_ok_iff.1 h
      cases h
      rw [List.length_cons, List.length_cons, ih hrest]

/-- The paths of an orderly node stand apart from one another. -/
theorem nodup_of_pairwise {ts : List (TreeObject α)}
    (h : ts.Pairwise fun p q => q.id ∉ p.ids) : (ts.map id).Nodup := by
  refine List.pairwise_map.2 (h.imp fun hpq heq => hpq ?_)
  rw [← heq]
  exact id_mem_ids _

/-- What a run over several subtrees leaves, if each leaves behind itself
and nothing else of what is in it, and none of them stands in another that
comes up later. -/
theorem foldlM_walkAll {ts : List (TreeObject α)}
    (hrun : ∀ t ∈ ts, ∀ k, t.walk.reverse.foldlM (visit make) k
      = (fold make t).map fun b => (t.id, b) :: k.without t.ids)
    (hpairs : ts.Pairwise fun p q => q.id ∉ p.ids) (k : Held β) :
    (ts.flatMap walk).reverse.foldlM (visit make) k
      = (foldAll make ts).map fun bs => (ts.map id).zip bs ++ k.without (ts.flatMap ids) := by
  induction ts with
  | nil =>
      rw [foldAll]
      exact congrArg Except.ok (without_eq_self fun i _ => List.not_mem_nil).symm
  | cons t ts ih =>
      obtain ⟨hahead, hpairs⟩ := List.pairwise_cons.1 hpairs
      rw [List.flatMap_cons, List.reverse_append, List.foldlM_append,
        ih (fun u hu => hrun u (List.mem_cons_of_mem t hu)) hpairs, foldAll]
      cases hall : foldAll make ts with
      | error e => rfl
      | ok bs =>
          show t.walk.reverse.foldlM (visit make) _ = _
          rw [hrun t List.mem_cons_self]
          -- what stands for the later subtrees is in none of the places of this one
          have hstay : Held.without ((ts.map id).zip bs) t.ids = (ts.map id).zip bs := by
            refine without_eq_self fun i hi => ?_
            obtain ⟨p, hp, rfl⟩ := List.mem_map.1 hi
            obtain ⟨u, hu, hid⟩ := List.mem_map.1 (List.of_mem_zip hp).1
            exact hid ▸ hahead u hu
          have hleft : Held.without ((ts.map id).zip bs ++ k.without (ts.flatMap ids)) t.ids
              = (ts.map id).zip bs ++ k.without ((t :: ts).flatMap ids) := by
            rw [List.flatMap_cons, ← without_without]
            exact (List.filter_append ..).trans (congrArg (· ++ _) hstay)
          rw [hleft]
          cases fold make t <;> rfl

/-- What a run over orderly objects leaves: the object itself, and nothing
else of what is in it. -/
theorem foldlM_walk {t : TreeObject α} (h : t.Orderly) (k : Held β) :
    t.walk.reverse.foldlM (visit make) k
      = (fold make t).map fun b => (t.id, b) :: k.without t.ids := by
  induction t using induct generalizing k with
  | node t ih =>
      obtain ⟨hpaths, hpairs⟩ := orderly_iff.1 h
      rw [walk_eq_cons, List.reverse_cons, List.foldlM_append,
        foldlM_walkAll (fun p hp k => ih p hp (hpaths p hp) k) hpairs, fold_eq]
      cases hall : foldAll make t.paths with
      | error e => rfl
      | ok bs =>
          have hcollect : Held.collect ((t.paths.map id).zip bs
              ++ k.without (t.paths.flatMap ids)) t.paths
              = .ok (bs, k.without (t.paths.flatMap ids)) := by
            refine collect_zip (length_of_foldAll hall) (nodup_of_pairwise hpairs) ?_
            intro i hi hmem
            obtain ⟨p, hp, rfl⟩ := List.mem_map.1 hmem
            exact (mem_keys_without.1 hi).2 (List.mem_flatMap.2 ⟨p, hp, id_mem_ids p⟩)
          show (visit make ((t.paths.map id).zip bs ++ k.without (t.paths.flatMap ids)) t
            >>= fun k => pure k) = (make t bs).map _
          rw [visit, hcollect]
          show ((make t bs >>= fun b => .ok (Held.put _ t.id b)) >>= fun k => pure k)
            = (make t bs).map _
          cases make t bs with
          | error e => rfl
          | ok b =>
              show Except.ok (Held.put _ t.id b) = .ok _
              rw [put, without_without, ids_eq_cons]
              rfl

/-- A run over orderly objects is the recursion over the tree. -/
theorem build_eq_fold {t : TreeObject α} (h : t.Orderly) : build make t = fold make t := by
  rw [build, foldlM_walk h]
  cases fold make t with
  | error e => rfl
  | ok b => exact find_cons_self _ t.id b

/-- Where all subtrees ran to the end and their objects were there to be
taken, the subtrees are orderly and stand apart. -/
theorem orderly_of_foldlM_walkAll {ts : List (TreeObject α)}
    (hts : ∀ t ∈ ts, ∀ {k k' : Held β}, t.walk.reverse.foldlM (visit make) k = .ok k' → t.Orderly) :
    ∀ {k k' : Held β}, (ts.flatMap walk).reverse.foldlM (visit make) k = .ok k' →
      (ts.map id).Nodup → (∀ t ∈ ts, t.id ∈ k'.keys) →
      (∀ t ∈ ts, t.Orderly) ∧ ts.Pairwise fun p q => q.id ∉ p.ids := by
  induction ts with
  | nil => exact fun _ _ _ => ⟨fun t ht => (nomatch ht), .nil⟩
  | cons t ts ih =>
      intro k k' hrun hnodup hkeys
      rw [List.flatMap_cons, List.reverse_append, List.foldlM_append] at hrun
      obtain ⟨k₁, hrun₁, hrun⟩ := bind_eq_ok_iff.1 hrun
      have horderly := hts t List.mem_cons_self hrun
      rw [foldlM_walk horderly] at hrun
      rw [List.map_cons, List.nodup_cons] at hnodup
      cases hmade : fold make t with
      | error e =>
          rw [hmade] at hrun
          cases hrun
      | ok b =>
          rw [hmade] at hrun
          cases hrun
          -- a later subtree that is still there stands nowhere in this one
          have hlater : ∀ u ∈ ts, u.id ∈ k₁.keys ∧ u.id ∉ t.ids := by
            intro u hu
            have hkey := hkeys u (List.mem_cons_of_mem t hu)
            rw [keys, List.map_cons, List.mem_cons] at hkey
            rcases hkey with heq | hkey
            · exact absurd (List.mem_map.2 ⟨u, hu, heq⟩) hnodup.1
            · exact mem_keys_without.1 hkey
          obtain ⟨hall, hpairs⟩ := ih (fun u hu => hts u (List.mem_cons_of_mem t hu)) hrun₁ hnodup.2
            fun u hu => (hlater u hu).1
          exact ⟨List.forall_mem_cons.2 ⟨horderly, hall⟩,
            List.pairwise_cons.2 ⟨fun u hu => (hlater u hu).2, hpairs⟩⟩

/-- Objects that are run over to the end are orderly. -/
theorem orderly_of_foldlM_walk {t : TreeObject α} {k k' : Held β}
    (h : t.walk.reverse.foldlM (visit make) k = .ok k') : t.Orderly := by
  induction t using induct generalizing k k' with
  | node t ih =>
      rw [walk_eq_cons, List.reverse_cons, List.foldlM_append] at h
      obtain ⟨k₁, hpaths, hself⟩ := bind_eq_ok_iff.1 h
      rw [List.foldlM_cons] at hself
      obtain ⟨k₂, hvisit, -⟩ := bind_eq_ok_iff.1 hself
      obtain ⟨found, hcollect, -⟩ := bind_eq_ok_iff.1 hvisit
      obtain ⟨hnodup, hkeys⟩ := keys_of_collect hcollect
      exact orderly_iff.2 (orderly_of_foldlM_walkAll (fun p hp => ih p hp) hpaths hnodup hkeys)

/-- A run that comes to an end had its objects orderly. -/
theorem orderly_of_build {t : TreeObject α} {b : β} (h : build make t = .ok b) : t.Orderly := by
  obtain ⟨kept, hrun, -⟩ := bind_eq_ok_iff.1 h
  exact orderly_of_foldlM_walk hrun

-- ============================================================ the failing

/-- What is collected was kept, one for each of the objects, and what is
kept after that was kept before. -/
theorem of_collect {P : β → Prop} {ts : List (TreeObject α)} :
    ∀ {k : Held β} {found : List β × Held β}, (∀ p ∈ k, P p.2) → k.collect ts = .ok found →
      found.1.length = ts.length ∧ (∀ b ∈ found.1, P b) ∧ ∀ p ∈ found.2, P p.2 := by
  induction ts with
  | nil =>
      intro k found hk h
      cases h
      exact ⟨rfl, fun b hb => (nomatch hb), hk⟩
  | cons t ts ih =>
      intro k found hk h
      obtain ⟨b, hb, h⟩ := bind_eq_ok_iff.1 h
      obtain ⟨rest, hrest, h⟩ := bind_eq_ok_iff.1 h
      cases h
      obtain ⟨hlength, hall, hleft⟩ := ih (fun p hp => hk p (List.mem_of_mem_filter hp)) hrest
      exact ⟨congrArg (· + 1) hlength, List.forall_mem_cons.2 ⟨hk _ (mem_of_find hb), hall⟩, hleft⟩

variable {P : β → Prop}

/-- Can something good be made of every object, if what is made of its
paths is good? -/
def Makes (make : TreeObject α → List β → Except Fault β) (P : β → Prop) (t : TreeObject α) :
    Prop :=
  ∀ below, below.length = t.paths.length → (∀ b ∈ below, P b) → ∃ b, make t below = .ok b ∧ P b

/-- Where an object can be made, it is, or one of its paths is missing. -/
theorem visit_cases {k : Held β} {t : TreeObject α} (hk : ∀ p ∈ k, P p.2) (ht : Makes make P t) :
    (∃ k', visit make k t = .ok k' ∧ ∀ p ∈ k', P p.2)
      ∨ ∃ i, visit make k t = .error (.missingNode i) := by
  rcases collect_cases t.paths k with ⟨found, hfound, -⟩ | ⟨⟨i, hmissing⟩, -⟩
  · obtain ⟨hlength, hbelow, hleft⟩ := of_collect hk hfound
    obtain ⟨b, hb, hP⟩ := ht found.1 hlength hbelow
    refine .inl ⟨found.2.put t.id b, ?_, List.forall_mem_cons.2 ⟨hP, fun p hp => ?_⟩⟩
    · rw [visit, hfound]
      show (make t found.1 >>= fun b => _) = _
      rw [hb]
      rfl
    · exact hleft p (List.mem_of_mem_filter hp)
  · refine .inr ⟨i, ?_⟩
    rw [visit, hmissing]
    rfl

/-- A run comes to its end, or one of the objects is missing. -/
theorem foldlM_visit_cases {ts : List (TreeObject α)} (hts : ∀ t ∈ ts, Makes make P t) :
    ∀ {k : Held β}, (∀ p ∈ k, P p.2) →
      (∃ k', ts.foldlM (visit make) k = .ok k')
        ∨ ∃ i, ts.foldlM (visit make) k = .error (.missingNode i) := by
  induction ts with
  | nil => exact fun _ => .inl ⟨_, rfl⟩
  | cons t ts ih =>
      intro k hk
      rw [List.forall_mem_cons] at hts
      rw [List.foldlM_cons]
      rcases visit_cases hk hts.1 with ⟨k', hvisit, hk'⟩ | ⟨i, hmissing⟩
      · rw [hvisit]
        exact ih hts.2 hk'
      · rw [hmissing]
        exact .inr ⟨i, rfl⟩

/-- Over objects that are not orderly nothing is built: one of them is
missing, if nothing else is in the way. -/
theorem build_eq_missing {t : TreeObject α} (hmake : ∀ n ∈ t.walk, Makes make P n)
    (h : ¬ t.Orderly) : ∃ i, build make t = .error (.missingNode i) := by
  have hrun := foldlM_visit_cases (k := []) (fun n hn => hmake n (List.mem_reverse.1 hn))
    fun p hp => (nomatch hp)
  rcases hrun with ⟨k', hrun⟩ | ⟨i, hmissing⟩
  · exact absurd (orderly_of_foldlM_walk hrun) h
  · refine ⟨i, ?_⟩
    rw [build, hmissing]
    rfl

end TreeObject

end RecipeChart
