import Hoist.Proofs.Semantics.Value
import Mathlib.Algebra.Group.Nat.Defs
import Mathlib.Data.List.Forall2

/-!
# Related values

Two values are related when they are alike but for their functions, and those are related. What the
world makes of related values is related again: this is what naturality says, applied to a value whose
functions are pairs of related ones.

`Follows` compares two computations in one of two directions: what the one yields, the other one
yields too, up to a relation. A proof that leaves the direction open shows both at once.
-/

namespace Hoist

namespace Value

variable {α φ ψ : Type}

/-- Values that are alike but for their functions, which are related. -/
inductive Rel (R : φ → ψ → Prop) : Value α φ → Value α ψ → Prop
  | lit {l} : Rel R (.lit l) (.lit l)
  | atom {a} : Rel R (.atom a) (.atom a)
  | tuple {vs ws} (h : List.Forall₂ (Rel R) vs ws) : Rel R (.tuple vs) (.tuple ws)
  | fn {f g} (h : R f g) : Rel R (.fn f) (.fn g)

/-- A pair of related functions. -/
abbrev Pair (R : φ → ψ → Prop) : Type := {p : φ × ψ // R p.1 p.2}

variable {R : φ → ψ → Prop} {v : Value α φ} {w : Value α ψ} {vs : List (Value α φ)}
  {ws : List (Value α ψ)}

/-- One value with two families of functions, related one by one. -/
theorem rel_map {χ : Type} {f : χ → φ} {g : χ → ψ} (h : ∀ p, R (f p) (g p)) (u : Value α χ) :
    Rel R (u.map f) (u.map g) := by
  induction u using ind with
  | lit l => exact .lit
  | atom a => exact .atom
  | tuple us ih =>
    simp only [map, maps_eq]
    exact .tuple (List.forall₂_map_left_iff.2 (List.forall₂_map_right_iff.2
      (List.forall₂_same.2 ih)))
  | fn p => exact .fn (h p)

theorem exists_pairs (h : ∀ v ∈ vs, ∀ w : Value α ψ, Rel R v w → ∃ u : Value α (Pair R),
    u.map (fun p => p.1.1) = v ∧ u.map (fun p => p.1.2) = w) (hvs : List.Forall₂ (Rel R) vs ws) :
    ∃ us : List (Value α (Pair R)), us.map (map fun p => p.1.1) = vs ∧
      us.map (map fun p => p.1.2) = ws := by
  induction hvs with
  | nil => exact ⟨[], rfl, rfl⟩
  | @cons v w vs ws hv _ ih =>
    obtain ⟨u, rfl, rfl⟩ := h v (by simp) w hv
    obtain ⟨us, rfl, rfl⟩ := ih fun v hv => h v (List.mem_cons_of_mem _ hv)
    exact ⟨u :: us, rfl, rfl⟩

namespace Rel

/-- Related values are one value of pairs, seen from either side. -/
theorem pair (h : Rel R v w) : ∃ u : Value α (Pair R),
    u.map (fun p => p.1.1) = v ∧ u.map (fun p => p.1.2) = w := by
  induction v using ind generalizing w with
  | lit l =>
    cases h
    exact ⟨.lit l, rfl, rfl⟩
  | atom a =>
    cases h
    exact ⟨.atom a, rfl, rfl⟩
  | tuple vs ih =>
    cases h with
    | tuple h =>
      obtain ⟨us, rfl, rfl⟩ := exists_pairs (fun v hv w => ih v hv (w := w)) h
      exact ⟨.tuple us, by simp [map], by simp [map]⟩
  | fn f =>
    cases h with
    | @fn _ g h => exact ⟨.fn ⟨(f, g), h⟩, rfl, rfl⟩

theorem pairs (h : List.Forall₂ (Rel R) vs ws) : ∃ us : List (Value α (Pair R)),
    us.map (map fun p => p.1.1) = vs ∧ us.map (map fun p => p.1.2) = ws :=
  exists_pairs (fun _ _ _ => pair) h

theorem symm (h : Rel R v w) : Rel (flip R) w v := by
  obtain ⟨u, rfl, rfl⟩ := h.pair
  exact rel_map (fun p => p.2) u

/-- A value without functions is related to itself. -/
theorem lift (v : Value α Empty) : Rel R (v.lift : Value α φ) (v.lift : Value α ψ) :=
  rel_map (fun p => p.elim) v

theorem lifts (vs : List (Value α Empty)) :
    List.Forall₂ (Rel R) (vs.map Value.lift) (vs.map Value.lift) := by
  rw [List.forall₂_map_left_iff, List.forall₂_map_right_iff, List.forall₂_same]
  exact fun v _ => lift v

/-- A value without functions is related to nothing else. -/
theorem eq_lift {v : Value α Empty} (h : Rel R (v.lift : Value α φ) w) : w = v.lift := by
  induction v using ind generalizing w with
  | lit l => cases h; rfl
  | atom a => cases h; rfl
  | tuple vs ih =>
    have hlift : ∀ χ : Type, ((Value.tuple vs).lift : Value α χ) = .tuple (vs.map Value.lift) :=
      fun χ => by simp only [Value.lift, map, maps_eq]; rfl
    rw [hlift] at h ⊢
    cases h with
    | @tuple _ ws h =>
      congr 1
      clear hlift
      induction vs generalizing ws with
      | nil => cases h; rfl
      | cons v vs ihs =>
        cases h with
        | cons h hs =>
          rw [List.map_cons, ih v (by simp) h,
            ihs (fun v hv => ih v (List.mem_cons_of_mem _ hv)) hs]
  | fn f => exact f.elim

theorem eq_lift_left {w : Value α Empty} (h : Rel R v (w.lift : Value α ψ)) : v = w.lift :=
  h.symm.eq_lift

end Rel

end Value

section Worlds

variable {α φ ψ : Type} {R : φ → ψ → Prop} {v : Value α φ} {w : Value α ψ} {vs : List (Value α φ)}
  {ws : List (Value α ψ)}

/-- What treats functions as opaque makes related values of related ones. -/
theorem rel_of_map {F : {χ : Type} → List (Value α χ) → Option (Value α χ)}
    (hF : ∀ {χ χ' : Type} (g : χ → χ') (us : List (Value α χ)),
      F (us.map (·.map g)) = (F us).map (·.map g)) (h : List.Forall₂ (Value.Rel R) vs ws) :
    Option.Rel (Value.Rel R) (F vs) (F ws) := by
  obtain ⟨us, rfl, rfl⟩ := Value.Rel.pairs h
  rw [hF, hF]
  cases F us with
  | none => exact .none
  | some u => exact .some (Value.rel_map (fun p => p.2) u)

theorem Primitive.run_rel (P : Primitive α) (h : List.Forall₂ (Value.Rel R) vs ws) :
    Option.Rel (Value.Rel R) (P.run vs) (P.run ws) := rel_of_map P.run_map h

namespace World

variable (W : World α)

theorem truth_rel (h : Value.Rel R v w) : W.truth v = W.truth w := by
  obtain ⟨u, rfl, rfl⟩ := h.pair
  rw [W.truth_map, W.truth_map]

theorem item?_map (g : φ → ψ) (vs : List (Value α φ)) :
    item? (vs.map (·.map g)) = (item? vs).map (·.map g) := by
  rcases vs with - | ⟨v, - | ⟨i, - | ⟨_, _⟩⟩⟩
  · rfl
  · cases v <;> rfl
  · cases v with
    | tuple vs =>
      cases i with
      | lit l =>
        cases l with
        | int i =>
          simp only [List.map_cons, List.map_nil, Value.map, Value.maps_eq, item?]
          split <;> simp
        | _ => rfl
      | _ => rfl
    | _ => rfl
  · cases v with
    | tuple vs =>
      cases i with
      | lit l => cases l <;> rfl
      | _ => rfl
    | _ => rfl

theorem apply_map (name : String) (g : φ → ψ) (vs : List (Value α φ)) :
    W.apply name (vs.map (·.map g)) = (W.apply name vs).map (·.map g) := by
  unfold apply
  rw [item?_map, Primitive.run_map]
  split
  · cases item? vs <;> rfl
  · rfl

theorem apply_rel (name : String) (h : List.Forall₂ (Value.Rel R) vs ws) :
    Option.Rel (Value.Rel R) (W.apply name vs) (W.apply name ws) :=
  rel_of_map (W.apply_map name) h

/-- The item of a tuple at an index that is in range. -/
theorem apply_index {i : Nat} (hi : i < 2 ^ 63) (h : i < vs.length) :
    W.apply "index" [.tuple vs, .lit (.int (Int64.ofNat i))] = some vs[i] := by
  simp [apply, item?, Int64.toInt_ofNat_of_lt hi, h]

end World

end Worlds

/-- Which of two computations is followed by the other one. -/
inductive Direction
  | forth
  | back

/-- What the first computation yields, the second one yields too, or the other way round. -/
def Follows {β γ : Type} (d : Direction) (R : β → γ → Prop) (o : Option β) (o' : Option γ) : Prop :=
  match d with
  | .forth => ∀ v, o = some v → ∃ w, o' = some w ∧ R v w
  | .back => ∀ w, o' = some w → ∃ v, o = some v ∧ R v w

namespace Follows

variable {d : Direction} {β γ β' γ' : Type} {R : β → γ → Prop} {S : β' → γ' → Prop} {o : Option β}
  {o' : Option γ} {f : β → Option β'} {g : γ → Option γ'}

theorem some {v : β} {w : γ} (h : R v w) : Follows d R (.some v) (.some w) := by
  cases d with
  | forth => rintro _ ⟨⟩; exact ⟨w, rfl, h⟩
  | back => rintro _ ⟨⟩; exact ⟨v, rfl, h⟩

theorem of_rel (h : Option.Rel R o o') : Follows d R o o' := by
  cases h with
  | some h => exact some h
  | none => cases d <;> rintro _ ⟨⟩

theorem none : Follows d R Option.none Option.none := of_rel .none

/-- Computations are compared step by step. -/
theorem bind (h : Follows d R o o') (h' : ∀ v w, R v w → Follows d S (f v) (g w)) :
    Follows d S (o >>= f) (o' >>= g) := by
  cases d with
  | forth =>
    intro v hv
    obtain ⟨u, hu, hv⟩ := Option.bind_eq_some_iff.1 hv
    obtain ⟨w, rfl, hw⟩ := h u hu
    exact h' u w hw v hv
  | back =>
    intro w hw
    obtain ⟨u, hu, hw⟩ := Option.bind_eq_some_iff.1 hw
    obtain ⟨v, rfl, hv⟩ := h u hu
    exact h' v u hv w hw

theorem map {f : β → β'} {g : γ → γ'} (h : Follows d R o o') (h' : ∀ v w, R v w → S (f v) (g w)) :
    Follows d S (o.map f) (o'.map g) := by
  rw [Option.map_eq_bind, Option.map_eq_bind]
  exact h.bind fun v w hv => some (h' v w hv)

/-- One side goes on alone. -/
theorem bind_right {S : β → γ' → Prop} (h : Follows d R o o')
    (h' : ∀ v w, R v w → Follows d S (Option.some v) (g w)) : Follows d S o (o' >>= g) := by
  rw [← bind_pure o]
  exact h.bind h'

theorem imp {R' : β → γ → Prop} (h : Follows d R o o') (h' : ∀ v w, R v w → R' v w) :
    Follows d R' o o' := by
  cases d with
  | forth =>
    intro v hv
    obtain ⟨w, hw, hr⟩ := h v hv
    exact ⟨w, hw, h' v w hr⟩
  | back =>
    intro w hw
    obtain ⟨v, hv, hr⟩ := h w hw
    exact ⟨v, hv, h' v w hr⟩

end Follows

end Hoist
