import Hoist.Proofs.Semantics.Expressions

/-!
# Values handed over in tuples

A conditional or a loop hands the values of names over: one as it is, several in a tuple. Behind it the
names are bound to the items of the tuple, and the environments agree again.
-/

namespace Hoist.Lowering

open Hoist.Flat (Symbol Node Location Table runItems)

variable {α : Type} {W : World α} {T : Table} {names xs : List String} {Γ Γ' : Ctx}
  {env env' : Surface.Bindings α} {ρ : Flat.Bindings α} {n : Node} {items : List Item}
  {syms : List Symbol} {loc : Option Location} {vs : List (Surface.Val α)} {us : List (Flat.Val α)}
  {call : Flat.Fn α → List (Flat.Val α) → Option (Flat.Val α)} {last : Option (Flat.Val α)}

/-- What a branch hands over: one value as it is, several in a tuple. -/
def packedValue : List (Flat.Val α) → Flat.Val α
  | [u] => u
  | us => .tuple us

/-- Values that are handed over for names: those that the names have in a later environment, which is
otherwise the earlier one. -/
structure Given (T : Table) (env : Surface.Bindings α) (xs : List String) (env' : Surface.Bindings α)
    (us : List (Flat.Val α)) : Prop where
  values : ∃ vs, xs.map (env'.lookup ·) = vs.map some ∧ List.Forall₂ (ValRel T) vs us
  kept : ∀ x, x ∉ xs → env'.lookup x = env.lookup x

theorem Given.length (h : Given T env xs env' us) : us.length = xs.length := by
  obtain ⟨vs, hvs, hrel⟩ := h.values
  rw [← hrel.length_eq]
  simpa using (congrArg List.length hvs).symm

/-- Binding names to the values that they have later leads to the later environment. -/
theorem lookup_zip_reverse (hvs : xs.map (env'.lookup ·) = vs.map some)
    (hkept : ∀ x, x ∉ xs → env'.lookup x = env.lookup x) (x : String) :
    ((xs.zip vs).reverse ++ env).lookup x = env'.lookup x := by
  induction xs generalizing vs env with
  | nil => exact (hkept x (by simp)).symm
  | cons y xs ih =>
    cases vs with
    | nil => cases hvs
    | cons v vs =>
      simp only [List.map_cons, List.cons.injEq] at hvs
      rw [List.zip_cons_cons, List.reverse_cons, List.append_assoc]
      refine ih hvs.2 fun z hz => ?_
      rw [List.singleton_append, List.lookup_cons]
      split
      · rename_i he
        rw [eq_of_beq he, hvs.1]
      · rename_i he
        exact hkept z (by simp [hz, show z ≠ y by simpa using he])

/-- The values of names in a later environment are handed over by the code that packs them. -/
theorem packed_given (hΓ : Agrees T names Γ env' ρ) (hs : Γ.Have xs syms) (hx : xs ⊆ names)
    (hkept : ∀ x, x ∉ xs → env'.lookup x = env.lookup x) :
    ∃ us, Given T env xs env' us ∧
      Flat.eval W T call ρ (packed loc syms) = some (packedValue us) := by
  obtain ⟨vs, us, hvs, hrel, heval⟩ := hΓ.readAll (fun x hxs => hx hxs) hs
  refine ⟨us, ⟨⟨vs, hvs, hrel⟩, hkept⟩, ?_⟩
  have heval := heval W call loc
  unfold packed
  split
  · simp only [List.map_cons, List.map_nil, Flat.evals] at heval
    obtain ⟨u, hu, he⟩ := Option.bind_eq_some_iff.1 heval
    cases he
    exact hu
  · rename_i hne
    rw [Flat.eval, heval]
    have hlen : us.length = syms.length := by
      rw [← hs.length, ← hrel.length_eq]
      simpa using (congrArg List.length hvs).symm
    rcases us with - | ⟨u, - | ⟨u', us⟩⟩
    · rfl
    · obtain ⟨a, rfl⟩ := List.length_eq_one_iff.1 hlen.symm
      exact absurd rfl (hne a)
    · rfl

/-- An item is read from a tuple that is bound. -/
theorem eval_projection (hT : T.IsPlain) (hρ : ∀ p ∈ ρ, p.1.isGenerated = true) {tuple : Symbol}
    (hc : T.contains tuple = false) (htuple : ρ.get? tuple = some (.tuple us)) {i : Nat}
    {u : Flat.Val α} (hu : us[i]? = some u) (hi : i < 2 ^ 63) :
    Flat.eval W T call ρ (Lower.projection tuple i loc) = some u := by
  obtain ⟨hlt, hget⟩ := List.getElem?_eq_some_iff.1 hu
  have hb : (Symbol.builtin "index").isBuiltin = true := rfl
  have happly := W.apply_index hi hlt
  simp only [Lower.projection, Flat.index, Flat.eval, Flat.evals, Flat.readSymbol_builtin hT hρ,
    readSymbol_of_get? hc htuple, Option.bind_eq_bind, Option.bind_some, Option.pure_def,
    Flat.applyValue, hb, if_true, Flat.applyBuiltin, List.nil_append]
  simpa [Symbol.builtin, hget] using happly

/-- Names are bound to the items of a tuple, from an index on. -/
theorem Unpacks.keeps {tuple : Symbol} {i : Nat} (hT : T.IsPlain)
    (h : Unpacks T tuple i Γ xs items Γ') (hΓ : Agrees T names Γ env ρ)
    (hmem : tuple ∈ Γ.bound) (hc : T.contains tuple = false)
    (htuple : ρ.get? tuple = some (.tuple us)) (hi : i + xs.length ≤ 2 ^ 63)
    (hlen : xs.length = vs.length) (hrel : List.Forall₂ (ValRel T) vs (us.drop i)) :
    ∃ ρ', Agrees T names Γ' ((xs.zip vs).reverse ++ env) ρ' ∧
      ∀ call, runItems W T call ρ none items = some (ρ', none) := by
  induction h generalizing vs env ρ with
  | nil => exact ⟨ρ, hΓ, fun call => rfl⟩
  | @cons i Γ Γ' x xs is a loc ha _ ih =>
    cases vs with
    | nil => cases hlen
    | cons v vs =>
      rw [List.length_cons] at hi
      generalize hdrop : us.drop i = rest at hrel
      cases hrel with
      | @cons _ u _ rest hv hvs =>
        have hu : us[i]? = some u := by
          rw [← List.head?_drop, hdrop, List.head?_cons]
        have hnext : us.drop (i + 1) = rest := by
          rw [← List.tail_drop, hdrop, List.tail_cons]
        have hne : tuple.same a = false := ha.ne_known (known_of_mem hmem)
        obtain ⟨ρ', hρ', hrun⟩ := ih (hΓ.bind ha hv) (List.mem_append_left _ hmem)
          (by rw [get?_cons_of_ne hne, htuple]) (by omega) (by simpa using hlen) (hnext.symm ▸ hvs)
        refine ⟨ρ', ?_, fun call => ?_⟩
        · simpa [List.zip_cons_cons] using hρ'
        · rw [runItems, eval_projection hT hΓ.generated hc htuple hu (by omega)]
          exact hrun call

/-- Items that first compute a value, and for values handed over in it give the names these. -/
def HandsOver (W : World α) (T : Table) (names : List String) (Γ' : Ctx) (env : Surface.Bindings α)
    (ρ : Flat.Bindings α) (xs : List String) (n : Node) (items : List Item)
    (value : List (Flat.Val α) → Flat.Val α) : Prop :=
  ∀ call last, ∃ rest, runItems W T call ρ last items = Flat.eval W T call ρ n >>= rest ∧
    ∀ {env' us}, Given T env xs env' us →
      ∃ ρ', Agrees T names Γ' env' ρ' ∧ rest (value us) = some (ρ', none)

/-- Behind a tuple, the names have the values that were handed over. -/
theorem Unpacked.handsOver (hT : T.IsPlain) (h : Unpacked T Γ xs n items Γ')
    (hΓ : Agrees T names Γ env ρ) (hlen : xs.length < 2 ^ 63) :
    HandsOver W T names Γ' env ρ xs n items .tuple := by
  cases h with
  | @mk _ tmp is loc htmp h =>
    refine fun call last => ⟨fun u => runItems W T call ((tmp, u) :: ρ) none is, rfl, ?_⟩
    intro env' us hgiven
    obtain ⟨vs, hvs, hrel⟩ := hgiven.values
    have htuple : Flat.Bindings.get? ((tmp, .tuple us) :: ρ) tmp = some (.tuple us) := get?_cons_self
    obtain ⟨ρ', hρ', hrun⟩ := h.keeps (W := W) hT (hΓ.hide htmp) (by simp [Ctx.hide]) htmp.table
      htuple (by omega) (by simpa using congrArg List.length hvs) hrel
    exact ⟨ρ', hρ'.congr fun x _ => (lookup_zip_reverse hvs hgiven.kept x).symm, hrun call⟩

/-- Behind a conditional, the names have the values that its branch handed over. -/
theorem Results.handsOver (hT : T.IsPlain) (h : Results T Γ n xs items Γ') (hΓ : Agrees T names Γ env ρ)
    (hlen : xs.length < 2 ^ 63) : HandsOver W T names Γ' env ρ xs n items packedValue := by
  cases h with
  | @nil a loc ha =>
    refine fun call last => ⟨fun u => some ((a, u) :: ρ, none), rfl, fun {_ us} hgiven => ?_⟩
    exact ⟨_, (hΓ.hide ha).congr fun x _ => hgiven.kept x (by simp), rfl⟩
  | @one x a loc ha =>
    refine fun call last => ⟨fun u => some ((a, u) :: ρ, none), rfl, fun {_ us} hgiven => ?_⟩
    obtain ⟨u, rfl⟩ := List.length_eq_one_iff.1 hgiven.length
    obtain ⟨vs, hvs, hrel⟩ := hgiven.values
    obtain ⟨v, rfl⟩ := List.length_eq_one_iff.1 hrel.length_eq
    cases hrel with
    | cons hv _ =>
      exact ⟨_, (hΓ.bind ha hv).congr fun y _ => (lookup_zip_reverse hvs hgiven.kept y).symm, rfl⟩
  | many htwo h =>
    intro call last
    obtain ⟨rest, hrun, hrest⟩ := h.handsOver (W := W) hT hΓ hlen call last
    refine ⟨rest, hrun, fun {_ us} hgiven => ?_⟩
    have hpacked : packedValue us = .tuple us := by
      have hlen' := hgiven.length
      unfold packedValue
      split
      · simp at hlen'
        omega
      · rfl
    exact hpacked ▸ hrest hgiven

end Hoist.Lowering
