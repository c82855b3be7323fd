import Hoist.Proofs.Lowering.Finished
import Hoist.Proofs.Semantics.Statements

/-!
# The meaning of functions is kept

A function and the lambda it was lifted to yield related values for related arguments, whatever they
call. Calls that are nested less deep do so by induction, so all calls do.
-/

namespace Hoist.Lowering

open Hoist.Flat (Symbol Node Location Table)
open Hoist.Surface (Code Stmt blockMentions)

variable {α : Type} {W : World α} {T : Table} {d : Direction} {r : Nat} {Δ : Ctx} {n : Node}
  {env : Surface.Bindings α} {ρ : Flat.Bindings α}

/-- The body of a function and its code yield related values. -/
theorem FunctionCode.follows {code : Code} (hT : T.IsPlain) (h : FunctionCode T Δ code n)
    (htidy : code.isTidy = true) (hΔ : Agrees T code.mentions Δ env ρ)
    (hcalls : ∀ r' ≤ r, Calls d W T r') :
    Follows d (ValRel T) (code.run W (d.knot W r) env) (Flat.eval W T (d.call W T r) ρ n) := by
  cases h with
  | expr h => exact ExprCode.keeps hT (hcalls r (Nat.le_refl r)) hΔ _ h (List.Subset.refl _)
  | @block b _ _ _ _ _ h hn =>
    have hkeeps : BlockKeeps d W T (blockMentions b) b :=
      blockKeeps_of (fun st _ => StmtCode.keeps hT st) htidy (List.Subset.refl _)
    have hblock := hkeeps h hcalls hΔ (.none : Option.Rel (ValRel T) none none)
    rw [Flat.eval_group hn]
    generalize Surface.blockReturns b = returns at hblock
    refine hblock.bind fun flow p hflow => ?_
    cases hflow with
    | next _ related _ => exact .of_rel related
    | back value => exact .some value

/-- Calls of related functions follow each other at every stage. -/
theorem calls_follow (hT : T.IsPlain) (r : Nat) : Calls d W T r := by
  induction r using Nat.strongRecOn with
  | ind r ih =>
    rintro f ⟨ref, ws⟩ hf as bs hargs
    refine .call fun r' hr' => ?_
    cases hf with
    | @mk params code env l Γ own captured formals vs _ hlambda hbound hformals hlen hown hparams hbody
        htidy hvalues hrel hhidden =>
      have hcaptured : captured.length = ws.length := by
        rw [← hrel.length_eq]
        simpa using congrArg List.length hvalues
      rw [hlambda, Option.bind_some, Surface.Closure.enter, Flat.Lambda.enter]
      by_cases hcount : params.length = as.length
      · have hcount' : l.params.length = (ws ++ bs).length := by
          simp [hbound, hcaptured, ← hlen, hcount, hargs.length_eq]
        have hsound : (Γ.inner own captured formals).Sound T := .inner fun p hp =>
          (hown p hp).imp_right fun (he : p.2 = l.ref) => he ▸ known_of_find hlambda
        have hstart := Agrees.inner hsound (hbound ▸ hformals) hlen hparams hvalues hrel hcount hargs
          hhidden
        rw [if_pos hcount, if_pos hcount', hbound]
        exact hbody.follows hT htidy hstart fun r'' hr'' => ih r'' (Nat.lt_of_le_of_lt hr'' hr')
      · have hcount' : ¬ l.params.length = (ws ++ bs).length := by
          simpa [hbound, hcaptured, ← hlen, ← hargs.length_eq] using hcount
        rw [if_neg hcount, if_neg hcount']
        exact .none

namespace Finished

variable {f : String} {ps : Surface.Params Surface.Expr} {sp : Surface.Span} {ds : List Surface.Expr}
  {b : List Stmt} {formals : List Symbol} {code : Node} {loc : Option Location} {items : List Item}
  {L : List Made} {m : Surface.Module} {args : List (Value α Empty)} {v : Value α Empty}
  (h : Finished T f ps.names b formals code loc items L Δ)

include h

/-- No lambda of a unit is taken for a builtin. -/
theorem isPlain : T.IsPlain := by
  intro l hl
  rw [h.lambdas] at hl
  rcases List.mem_append.1 hl with hl | hl
  · obtain ⟨m, -, rfl⟩ := List.mem_map.1 hl
    simp [Symbol.isBuiltin, m.generated]
  · obtain rfl := List.mem_singleton.1 hl
    rfl

/-- The function of the unit is the only global among its lambdas. -/
theorem contains_global {x : String} (hx : x ≠ f) : T.contains (.global x) = false := by
  rw [Table.contains, List.any_eq_false]
  intro l hl
  rw [h.lambdas] at hl
  rcases List.mem_append.1 hl with hl | hl
  · obtain ⟨m, -, rfl⟩ := List.mem_map.1 hl
    rw [Symbol.same_comm, Symbol.not_same_of_plain m.generated rfl]
    exact Bool.false_ne_true
  · obtain rfl := List.mem_singleton.1 hl
    simpa [Symbol.same, Symbol.global, Symbol.isGenerated] using Ne.symm hx

/-- The function of a unit is related to the lambda of that name: around it there is nothing. -/
theorem related (hself : f ∉ blockMentions b) (htidy : Surface.blockIsTidy b = true) :
    FnRel (α := α) T ⟨ps.names, .block b, []⟩ ⟨.global f, []⟩ := by
  have hne : ∀ {x}, x ∈ blockMentions b → x ≠ f := fun hx he => hself (he ▸ hx)
  let Γ : Ctx := ⟨fun x => x == f, fun _ => none, []⟩
  have hentry : Γ.inner (paramBindings ps.names formals ++ [(f, .global f)]) [] formals =
      entryCtx f ps.names formals := entry_ctx h.length fun x => by simp [Γ]
  let entry : Flat.Lambda := ⟨.global f, formals, code, loc⟩
  have hcaptured : ([] : List (String × Symbol)).map (([] : Surface.Bindings α).lookup ·.1) =
      ([] : List (Surface.Val α)).map some := rfl
  exact .mk (l := entry) h.find_entry (by simp [entry]) h.params h.length
    (fun p hp => functionBindings_mem hp) (fun x hx => functionBindings_lookup (hne hx))
    (.block (hentry ▸ h.block) h.grouped) htidy hcaptured .nil
    fun x hx _ => ⟨rfl, h.contains_global (hne hx)⟩

/-- A unit yields what its function does. -/
theorem returns_iff (hm : m.body = [.functionDef sp f ps b ds]) (hself : f ∉ blockMentions b)
    (htidy : Surface.blockIsTidy b = true) : m.Returns W args v ↔ T.Returns W (.global f) args v := by
  have hcall := h.related (α := α) hself htidy
  have hargs : List.Forall₂ (ValRel T) (args.map .lift) (args.map .lift) := Value.Rel.lifts args
  have hfunction : m.function? (α := α) = some ⟨ps.names, .block b, []⟩ := by
    simp [Surface.Module.function?, hm]
  constructor
  · rintro ⟨c, hc, k, hk⟩
    rw [hfunction] at hc
    cases hc
    obtain ⟨w, hw, hv⟩ := calls_follow (d := .forth) h.isPlain k _ _ hcall _ _ hargs _ hk
    rw [hv.eq_lift] at hw
    exact Flat.Table.returns_iff.2 hw
  · rintro ⟨k, hk⟩
    obtain ⟨w, hw, hv⟩ := calls_follow (d := .back) h.isPlain k _ _ hcall _ _ hargs _ hk
    rw [hv.eq_lift_left] at hw
    exact Surface.Module.returns_iff.2 ⟨_, hfunction, hw⟩

end Finished

end Hoist.Lowering
