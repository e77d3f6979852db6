/-
Tasks with a registry, put one after another. A task ends with a result or
with the reason for its failing, and with a registry either way; so what is
told of a task that is made of others is told twice, once for the ending
well and once for the failing. A sequence fails where its first part does,
with the registry that this part has left, or where its second part does,
which went on from there.
-/
import RecipeChart.Registry

namespace RecipeChart.Registry

variable {ε β γ δ : Type} {r r' : Registry}

/-- The endings of tasks can be compared. -/
instance decidableEqId {α : Type} [DecidableEq α] : DecidableEq (Id α) :=
  inferInstanceAs (DecidableEq α)

-- ============================================================ sequences

/-- A task behind another is run on the registry that the first leaves, or
not at all. -/
theorem bind_run (op : Task ε β) (f : β → Task ε γ) (r : Registry) :
    (op >>= f) r = match op r with
      | (.ok b, r₁) => f b r₁
      | (.error e, r₁) => (.error e, r₁) := by
  rcases h : op r with ⟨_ | _, r₁⟩ <;> simp only [bind, ExceptT.bind, ExceptT.mk, StateT.bind, h]
  · rfl
  · rfl

/-- A sequence ends well exactly when both its parts do, the second going on
from what the first has left. -/
theorem bind_ok_iff {op : Task ε β} {f : β → Task ε γ} {c : γ} :
    (op >>= f) r = (.ok c, r') ↔ ∃ b r₁, op r = (.ok b, r₁) ∧ f b r₁ = (.ok c, r') := by
  rw [bind_run]
  rcases op r with ⟨e | b, r₁⟩
  · exact ⟨fun h => (nomatch h), fun ⟨_, _, h, _⟩ => (nomatch h)⟩
  · constructor
    · intro h
      exact ⟨b, r₁, rfl, h⟩
    · intro ⟨_, _, h, hf⟩
      cases h
      exact hf

/-- A sequence fails exactly when one of its parts does. -/
theorem bind_error_iff {op : Task ε β} {f : β → Task ε γ} {e : ε} :
    (op >>= f) r = (.error e, r') ↔ op r = (.error e, r')
      ∨ ∃ b r₁, op r = (.ok b, r₁) ∧ f b r₁ = (.error e, r') := by
  rw [bind_run]
  rcases op r with ⟨e' | b, r₁⟩
  · constructor
    · intro h
      cases h
      exact .inl rfl
    · rintro (h | ⟨_, _, h, _⟩)
      · cases h
        rfl
      · cases h
  · constructor
    · intro h
      exact .inr ⟨b, r₁, rfl, h⟩
    · rintro (h | ⟨_, _, h, hf⟩)
      · cases h
      · cases h
        exact hf

/-- What begins by looking at the registry goes on from there. -/
theorem get_bind_iff {f : Registry → Task ε γ} {result : Except ε γ} :
    ((get : Task ε Registry) >>= f) r = (result, r') ↔ f r r = (result, r') := Iff.rfl

/-- A task that only answers leaves the registry. -/
theorem pure_ok_iff {b c : β} : (pure b : Task ε β) r = (.ok c, r') ↔ b = c ∧ r = r' := by
  constructor
  · intro h
    cases h
    exact ⟨rfl, rfl⟩
  · rintro ⟨rfl, rfl⟩
    rfl

/-- What is made of an answer leaves the registry to the task that gives
it. -/
theorem map_ok_iff {op : Task ε β} {g : β → γ} {c : γ} :
    (g <$> op) r = (.ok c, r') ↔ ∃ b, op r = (.ok b, r') ∧ g b = c := by
  rw [map_eq_pure_bind, bind_ok_iff]
  constructor
  · intro ⟨b, r₁, hop, h⟩
    obtain ⟨hb, rfl⟩ := pure_ok_iff.1 h
    exact ⟨b, hop, hb⟩
  · rintro ⟨b, hop, rfl⟩
    exact ⟨b, r', hop, rfl⟩

/-- A task fails no other way for what would be made of its answer. -/
theorem map_error_iff {op : Task ε β} {g : β → γ} {e : ε} :
    (g <$> op) r = (.error e, r') ↔ op r = (.error e, r') := by
  rw [map_eq_pure_bind, bind_error_iff]
  refine ⟨fun h => h.elim id fun ⟨_, _, _, hpure⟩ => (nomatch hpure), .inl⟩

-- ================================================================ lists

/-- Nothing to be done leaves the registry. -/
theorem mapM_nil_ok_iff {op : δ → Task ε β} {bs : List β} :
    ([] : List δ).mapM op r = (.ok bs, r') ↔ bs = [] ∧ r = r' := by
  rw [List.mapM_nil, pure_ok_iff, eq_comm]

/-- What is done for several is done for the first, and for the rest on what
that leaves. -/
theorem mapM_cons_ok_iff {op : δ → Task ε β} {x : δ} {xs : List δ} {bs : List β} :
    (x :: xs).mapM op r = (.ok bs, r')
      ↔ ∃ b bs' r₁, op x r = (.ok b, r₁) ∧ xs.mapM op r₁ = (.ok bs', r') ∧ bs = b :: bs' := by
  rw [List.mapM_cons, bind_ok_iff]
  constructor
  · intro ⟨b, r₁, hx, h⟩
    obtain ⟨bs', hxs, rfl⟩ := map_ok_iff.1 h
    exact ⟨b, bs', r₁, hx, hxs, rfl⟩
  · rintro ⟨b, bs', r₁, hx, hxs, rfl⟩
    exact ⟨b, r₁, hx, map_ok_iff.2 ⟨bs', hxs, rfl⟩⟩

-- ============================================================= failings

/-- A task whose failing is told in other words ends as it would have. -/
theorem adapt_run {ε' : Type} (g : ε → ε') (op : Task ε β) (r : Registry) :
    (ExceptT.adapt g op : Task ε' β) r = ((op r).1.mapError g, (op r).2) := rfl

/-- A task whose failure is told differently succeeds as before. -/
theorem adapt_ok_iff {ε' : Type} {g : ε → ε'} {op : Task ε β} {b : β} :
    (ExceptT.adapt g op : Task ε' β) r = (.ok b, r') ↔ op r = (.ok b, r') := by
  rw [adapt_run]
  rcases op r with ⟨e | b', r₁⟩
  · exact ⟨fun h => (nomatch h), fun h => (nomatch h)⟩
  · exact ⟨fun h => by cases h; rfl, fun h => by cases h; rfl⟩

/-- It fails as before, and leaves the same registry. -/
theorem adapt_error_iff {ε' : Type} {g : ε → ε'} {op : Task ε β} {e' : ε'} :
    (ExceptT.adapt g op : Task ε' β) r = (.error e', r')
      ↔ ∃ e, op r = (.error e, r') ∧ g e = e' := by
  rw [adapt_run]
  rcases op r with ⟨e | b', r₁⟩
  · constructor
    · intro h
      cases h
      exact ⟨e, rfl, rfl⟩
    · rintro ⟨_, h, rfl⟩
      cases h
      rfl
  · exact ⟨fun h => (nomatch h), fun ⟨_, h, _⟩ => (nomatch h)⟩

end RecipeChart.Registry
