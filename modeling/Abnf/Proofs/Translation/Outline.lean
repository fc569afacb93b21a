import Abnf.Proofs.Layout
import Abnf.Proofs.Tables

/-!
# Layouts of drafts

An expression is laid out in two steps when its names are known last: it is laid out with drafts for
its atoms, and each draft is replaced by what its atom stands for, one after the other at the places
where the atoms stand.

* `Expr.placedFrom`: the atoms of an expression with their places in its layout.
* `Expr.foldl_placedFrom`: replacing drafts one by one changes one layout into the other.
-/

namespace Abnf.Expr

variable {α β : Type}

/-! ## Layouts of several expressions -/

theorem mapAll_append (f : α → β) (es es' : List (Expr α)) :
    mapAll f (es ++ es') = mapAll f es ++ mapAll f es' := by
  rw [mapAll_eq_map, mapAll_eq_map, mapAll_eq_map, List.map_append]

theorem starts_append (start : Nat) (es es' : List (Expr α)) :
    starts start (es ++ es') = starts start es ++ starts (start + sizeAll es) es' := by
  induction es generalizing start with
  | nil => rfl
  | cons e es ih => rw [List.cons_append, starts, starts, ih, sizeAll, Nat.add_assoc]; rfl

theorem layoutAllFrom_append (start : Nat) (es es' : List (Expr Opcode)) :
    layoutAllFrom start (es ++ es') =
      layoutAllFrom start es ++ layoutAllFrom (start + sizeAll es) es' := by
  induction es generalizing start with
  | nil => rfl
  | cons e es ih =>
    rw [List.cons_append, layoutAllFrom, layoutAllFrom, ih, sizeAll, Nat.add_assoc,
      List.append_assoc]

/-! ## Sizes do not depend on atoms -/

mutual

@[simp]
theorem size_map (f : α → β) : (e : Expr α) → (e.map f).size = e.size
  | atom _ => rfl
  | alt es => congrArg (· + 1) (sizeAll_mapAll f es)
  | cat es => congrArg (· + 1) (sizeAll_mapAll f es)
  | under _ e => congrArg (· + 1) (size_map f e)

@[simp]
theorem sizeAll_mapAll (f : α → β) : (es : List (Expr α)) → sizeAll (mapAll f es) = sizeAll es
  | [] => rfl
  | e :: es => by rw [mapAll, sizeAll, sizeAll, size_map f e, sizeAll_mapAll f es]

end

@[simp]
theorem starts_mapAll (f : α → β) (start : Nat) (es : List (Expr α)) :
    starts start (mapAll f es) = starts start es := by
  induction es generalizing start with
  | nil => rfl
  | cons e es ih => rw [mapAll, starts, starts, size_map, ih]

/-! ## Atoms in their places -/

mutual

/-- The leaves and governing operators of an expression with their places, when its root stands at
position `start`. -/
def placedFrom (start : Nat) : Expr α → List (Nat × α)
  | atom a => [(start, a)]
  | alt es => placedAllFrom (start + 1) es
  | cat es => placedAllFrom (start + 1) es
  | under a e => (start, a) :: placedFrom (start + 1) e

/-- The leaves and governing operators of expressions laid out one after the other, with their
places. -/
def placedAllFrom (start : Nat) : List (Expr α) → List (Nat × α)
  | [] => []
  | e :: es => placedFrom start e ++ placedAllFrom (start + size e) es

end

theorem placedAllFrom_append (start : Nat) (es es' : List (Expr α)) :
    placedAllFrom start (es ++ es') =
      placedAllFrom start es ++ placedAllFrom (start + sizeAll es) es' := by
  induction es generalizing start with
  | nil => rfl
  | cons e es ih =>
    rw [List.cons_append, placedAllFrom, placedAllFrom, ih, sizeAll, Nat.add_assoc,
      List.append_assoc]

mutual

theorem map_snd_placedFrom (start : Nat) : (e : Expr α) →
    (placedFrom start e).map Prod.snd = e.atoms
  | atom _ => rfl
  | alt es => map_snd_placedAllFrom (start + 1) es
  | cat es => map_snd_placedAllFrom (start + 1) es
  | under a e => congrArg (a :: ·) (map_snd_placedFrom (start + 1) e)

theorem map_snd_placedAllFrom (start : Nat) : (es : List (Expr α)) →
    (placedAllFrom start es).map Prod.snd = atomsAll es
  | [] => rfl
  | e :: es => by
    rw [placedAllFrom, atomsAll, List.map_append, map_snd_placedFrom start e,
      map_snd_placedAllFrom _ es]

end

mutual

theorem lt_of_mem_placedFrom {i : Nat} {a : α} {start : Nat} : (e : Expr α) →
    (i, a) ∈ placedFrom start e → i < start + e.size
  | atom _, h => by
    obtain ⟨rfl, -⟩ := Prod.mk.inj (List.mem_singleton.1 h)
    exact Nat.lt_succ_self i
  | alt es, h | cat es, h => by
    have := lt_of_mem_placedAllFrom es h
    rw [size]
    omega
  | under _ e, h => by
    rw [size]
    rcases List.mem_cons.1 h with h | h
    · obtain ⟨rfl, -⟩ := Prod.mk.inj h
      omega
    · have := lt_of_mem_placedFrom e h
      omega

theorem lt_of_mem_placedAllFrom {i : Nat} {a : α} {start : Nat} : (es : List (Expr α)) →
    (i, a) ∈ placedAllFrom start es → i < start + sizeAll es
  | [], h => absurd h List.not_mem_nil
  | e :: es, h => by
    rw [sizeAll]
    rcases List.mem_append.1 h with h | h
    · have := lt_of_mem_placedFrom e h
      omega
    · have := lt_of_mem_placedAllFrom es h
      omega

end

/-! ## Replacing drafts -/

section

variable {f g : α → Opcode} {step : List Opcode → Nat × α → List Opcode}

mutual

/-- If a step replaces the draft of one atom in its place, all steps together replace all drafts. -/
theorem foldl_placedFrom
    (hstep : ∀ before after a, step (before ++ f a :: after) (before.length, a) =
      before ++ g a :: after) (before after : List Opcode) : (e : Expr α) →
    (placedFrom before.length e).foldl step
        (before ++ (layoutFrom before.length (e.map f) ++ after)) =
      before ++ (layoutFrom before.length (e.map g) ++ after)
  | atom a => hstep before after a
  | alt es => by
    have h := foldl_placedAllFrom hstep (before ++ [.alt (starts (before.length + 1) es)]) after es
    simpa [placedFrom, layoutFrom, map] using h
  | cat es => by
    have h := foldl_placedAllFrom hstep (before ++ [.cat (starts (before.length + 1) es)]) after es
    simpa [placedFrom, layoutFrom, map] using h
  | under a e => by
    have h := foldl_placedFrom hstep (before ++ [g a]) after e
    simpa [placedFrom, layoutFrom, map, hstep] using h

theorem foldl_placedAllFrom
    (hstep : ∀ before after a, step (before ++ f a :: after) (before.length, a) =
      before ++ g a :: after) (before after : List Opcode) : (es : List (Expr α)) →
    (placedAllFrom before.length es).foldl step
        (before ++ (layoutAllFrom before.length (mapAll f es) ++ after)) =
      before ++ (layoutAllFrom before.length (mapAll g es) ++ after)
  | [] => rfl
  | e :: es => by
    have h := foldl_placedAllFrom hstep (before ++ layoutFrom before.length (e.map g)) after es
    rw [List.length_append, length_layoutFrom, size_map] at h
    simp only [placedAllFrom, mapAll, layoutAllFrom, size_map, List.foldl_append, List.append_assoc,
      foldl_placedFrom hstep before _ e] at h ⊢
    exact h

end

end

end Abnf.Expr
