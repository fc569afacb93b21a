import Abnf.Proofs.Engine.Run

/-!
# Trials

Runs as a function that is cheap to evaluate: an expression is tried on a list of bytes, without tables
of opcodes and without a table of records. Trees are put together as they are found, and what is seen
of the events is kept instead of the events. Trials are cut at a depth, so a trial that ends
is a run (`run_of_trial`).
-/

namespace Abnf.Engine

open scoped Decisions

variable {σ : Type}

/-- What a trial leaves, and what has been seen of its events. -/
structure Trial (σ : Type) where
  result : Option Nat
  nodes : List Node
  seen : σ

namespace Trial

/-- What is left when `length` bytes with their trees are matched first. -/
def behind (length : Nat) (nodes : List Node) (t : Trial σ) : Trial σ :=
  ⟨t.result.map (length + ·), if t.result.isSome then nodes ++ t.nodes else [], t.seen⟩

end Trial

/-- Tries an expression at `pos`, in front of the bytes `rest`, within a depth. -/
def Scheme.trial (scheme : Scheme) (see : σ → Event → σ) :
    Nat → Expr Opcode → Nat → List UInt8 → σ → Option (Trial σ)
  | 0, _, _, _, _ => none
  | depth + 1, .atom (.rnm rule), pos, rest, seen =>
    (scheme.body rule).bind fun body =>
      (scheme.trial see depth body pos rest (see seen ⟨rule, .active, pos, 0⟩)).map fun t =>
        ⟨t.result, scheme.wrap rule pos t.result t.nodes,
          see t.seen ⟨rule, .ofResult t.result, pos, t.result.getD 0⟩⟩
  | _ + 1, .atom op, pos, rest, seen =>
    (leafResult? op pos rest).map fun result => ⟨result, [], seen⟩
  | _ + 1, .alt [], _, _, seen => some ⟨none, [], seen⟩
  | depth + 1, .alt (e :: es), pos, rest, seen =>
    (scheme.trial see depth e pos rest seen).bind fun t =>
      match t.result with
      | some _ => some t
      | none => scheme.trial see depth (.alt es) pos rest t.seen
  | _ + 1, .cat [], _, _, seen => some ⟨some 0, [], seen⟩
  | depth + 1, .cat (e :: es), pos, rest, seen =>
    (scheme.trial see depth e pos rest seen).bind fun t =>
      match t.result with
      | none => some ⟨none, [], t.seen⟩
      | some length =>
        (scheme.trial see depth (.cat es) (pos + length) (rest.drop length) t.seen).map
          (.behind length t.nodes)
  | depth + 1, .under (.rep min max) e, pos, rest, seen =>
    if max = some 0 then
      some ⟨enough min 0, [], seen⟩
    else
      (scheme.trial see depth e pos rest seen).bind fun t =>
        match t.result with
        | none => some ⟨enough min 0, [], t.seen⟩
        | some 0 => some ⟨enough min 1, if min.toNat ≤ 1 then t.nodes else [], t.seen⟩
        | some (length + 1) =>
          (scheme.trial see depth (.under (.rep (fewer min) (max.map fewer)) e)
            (pos + (length + 1)) (rest.drop (length + 1)) t.seen).map
              (.behind (length + 1) t.nodes)
  | depth + 1, .under .and e, pos, rest, seen =>
    (scheme.trial see depth e pos rest seen).map fun t =>
      ⟨t.result.map fun _ => 0, [], t.seen⟩
  | depth + 1, .under .not e, pos, rest, seen =>
    (scheme.trial see depth e pos rest seen).map fun t =>
      ⟨if t.result.isSome then none else some 0, [], t.seen⟩
  | _ + 1, .under _ _, _, _, _ => none

/-- A trial that ends is a run. -/
theorem run_of_trial {scheme : Scheme} {see : σ → Event → σ} {depth : Nat} {e : Expr Opcode}
    {pos : Nat} {rest : List UInt8} {seen : σ} {t : Trial σ}
    (h : scheme.trial see depth e pos rest seen = some t) :
    ∃ events, Run scheme e pos rest t.result t.nodes events ∧ t.seen = events.foldl see seen := by
  fun_induction Scheme.trial scheme see depth e pos rest seen generalizing t with
  | case1 => cases h
  | case2 _ _ _ _ _ ih =>
    obtain ⟨body, hbody, h⟩ := Option.bind_eq_some_iff.1 h
    obtain ⟨inner, hinner, rfl⟩ := Option.map_eq_some_iff.1 h
    obtain ⟨events, hrun, hseen⟩ := ih body hinner
    exact ⟨_, .rule hbody hrun, by simp [bracket, hseen]⟩
  | case3 =>
    obtain ⟨result, hresult, rfl⟩ := Option.map_eq_some_iff.1 h
    exact ⟨[], .leaf hresult, rfl⟩
  | case4 =>
    cases h
    exact ⟨[], .altNil, rfl⟩
  | case5 _ _ _ _ _ _ ih ihrest =>
    obtain ⟨⟨result, nodes, seen'⟩, hfirst, h⟩ := Option.bind_eq_some_iff.1 h
    obtain ⟨events, hrun, rfl⟩ := ih hfirst
    cases result with
    | some length =>
      cases h
      exact ⟨events, .altHit hrun, rfl⟩
    | none =>
      obtain ⟨events', hrun', hseen'⟩ := ihrest _ h
      cases hrun.nodes_eq_nil
      exact ⟨_, .altMiss hrun hrun', by rw [hseen', List.foldl_append]⟩
  | case6 =>
    cases h
    exact ⟨[], .catNil, rfl⟩
  | case7 _ _ _ _ _ _ ih ihrest =>
    obtain ⟨⟨result, nodes, seen'⟩, hfirst, h⟩ := Option.bind_eq_some_iff.1 h
    obtain ⟨events, hrun, rfl⟩ := ih hfirst
    cases result with
    | none =>
      cases h
      cases hrun.nodes_eq_nil
      exact ⟨events, .catMiss hrun, rfl⟩
    | some length =>
      obtain ⟨later, hlater, rfl⟩ := Option.map_eq_some_iff.1 h
      obtain ⟨events', hrun', hseen'⟩ := ihrest _ _ hlater
      exact ⟨_, .catNext hrun hrun', by rw [Trial.behind, hseen', List.foldl_append]⟩
  | case8 =>
    cases h
    exact ⟨[], .repDone, rfl⟩
  | case9 _ _ _ _ _ _ _ hmax ih ihrest =>
    obtain ⟨⟨result, nodes, seen'⟩, hfirst, h⟩ := Option.bind_eq_some_iff.1 h
    obtain ⟨events, hrun, rfl⟩ := ih hfirst
    match result with
    | none =>
      cases h
      cases hrun.nodes_eq_nil
      exact ⟨events, .repMiss hmax hrun, rfl⟩
    | some 0 =>
      cases h
      exact ⟨events, .repEmpty hmax hrun, rfl⟩
    | some (length + 1) =>
      obtain ⟨later, hlater, rfl⟩ := Option.map_eq_some_iff.1 h
      obtain ⟨events', hrun', hseen'⟩ := ihrest _ _ hlater
      exact ⟨_, .repNext hmax hrun hrun', by rw [Trial.behind, hseen', List.foldl_append]⟩
  | case10 _ _ _ _ _ ih =>
    obtain ⟨inner, hinner, rfl⟩ := Option.map_eq_some_iff.1 h
    obtain ⟨events, hrun, hseen⟩ := ih hinner
    exact ⟨events, .and hrun, hseen⟩
  | case11 _ _ _ _ _ ih =>
    obtain ⟨inner, hinner, rfl⟩ := Option.map_eq_some_iff.1 h
    obtain ⟨events, hrun, hseen⟩ := ih hinner
    exact ⟨events, .not hrun, hseen⟩
  | case12 => cases h

end Abnf.Engine
