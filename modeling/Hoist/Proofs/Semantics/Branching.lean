import Hoist.Proofs.Semantics.Results

/-!
# Choices and turns

A conditional chooses a branch and calls it at once; the branch begins where the environments agree, as
its parameters have the values of the names that it captures. A loop calls its lambda with the values of
its names, which chooses between a turn and the end; behind a turn it calls itself again.
-/

namespace Hoist.Lowering

open Hoist.Flat (Symbol Node Location Table Lambda runItems)
open Hoist.Surface (Expr Stmt blockAssigns blockDeclares blockReturns blockReads blockMentions)

variable {α β : Type} {W : World α} {T : Table} {d : Direction} {r : Nat} {names : List String}
  {Γ Γ' Δ : Ctx} {env env' : Surface.Bindings α} {ρ : Flat.Bindings α}
  {loc : Option Location}

/-- A lambda of the table is entered with the values that it captured and its arguments. -/
theorem entered {R : β → Flat.Val α → Prop} {o : Option β} {l : Lambda} {ws bs : List (Flat.Val α)}
    (hfind : T.find? l.ref = some l) (hlen : l.params.length = (ws ++ bs).length)
    (h : ∀ r' ≤ r, (d = .back → r' < r) → d.knot W r' = d.knot W r →
      Follows d R o (Flat.eval W T (d.call W T r') (l.params.zip (ws ++ bs)).reverse l.body)) :
    Follows d R o (d.call W T r ⟨l.ref, ws⟩ bs) := by
  refine .enter fun r' hle hlt hknot => ?_
  rw [hfind, Option.bind_some, Lambda.enter, if_pos hlen]
  exact h r' hle hlt hknot

/-- A call of a lambda of the table. -/
theorem applyValue_lambda (hT : T.IsPlain) {l : Lambda} (hfind : T.find? l.ref = some l)
    (call : Flat.Fn α → List (Flat.Val α) → Option (Flat.Val α)) (ws bs : List (Flat.Val α)) :
    Flat.applyValue W call (.fn ⟨l.ref, ws⟩) bs = call ⟨l.ref, ws⟩ bs := by
  simp [Flat.applyValue, hT.ref hfind]

/-- The value of a branch, when it is called, follows the statements of the branch. -/
theorem Lifted.follows {m : Made} {n : Node} {reads : List String} (hT : T.IsPlain)
    (hΓ : Agrees T names Γ env ρ) (hl : Lifted T Γ [] reads [] Δ m n) (hreads : reads ⊆ names)
    {R : β → Flat.Val α → Prop} {o : Surface.Knot α → Option β}
    (h : ∀ r' ≤ r, ∀ ρ', Agrees T names Δ env ρ' →
      Follows d R (o (d.knot W r')) (Flat.eval W T (d.call W T r') ρ' m.lambda.body)) :
    ∃ g, (∀ call, Flat.eval W T call ρ n = some g) ∧
      Follows d R (o (d.knot W r)) (Flat.applyValue W (d.call W T r) g []) := by
  have hsound := hl.sound (by simp)
  obtain ⟨captured, vs, ws, hfind, hbound, hformals, rfl, hvalues, hrel, heval⟩ :=
    hΓ.lifted hl fun x hx => hreads hx
  refine ⟨_, heval W, ?_⟩
  rw [applyValue_lambda hT hfind]
  have hlen : m.lambda.params.length = (ws ++ []).length := by
    have := congrArg List.length hvalues
    simp only [List.length_map] at this
    simp [hbound, this, hrel.length_eq]
  refine entered hfind hlen fun r' hle _ hknot => ?_
  rw [← hknot]
  refine h r' hle _ ?_
  rw [hbound] at hformals ⊢
  have hinner : Agrees T names (Γ.inner [] captured [])
      ((([] : List String).zip []).reverse ++ env)
      ((captured.map Prod.snd ++ []).zip (ws ++ [])).reverse :=
    .inner hsound hformals rfl (fun x _ => rfl) hvalues hrel rfl .nil fun x hx => hΓ.hidden x hx
  exact hinner

/-- A choice follows a test and what it decides between. -/
theorem choice_follows (hT : T.IsPlain) (hρ : ∀ p ∈ ρ, p.1.isGenerated = true)
    {R : β → Flat.Val α → Prop} {test : Option (Surface.Val α)} {o₁ o₂ : Option β} {t x y : Node}
    {g₁ g₂ : Flat.Val α} (ht : Follows d (ValRel T) test (Flat.eval W T (d.call W T r) ρ t))
    (hx : Flat.eval W T (d.call W T r) ρ x = some g₁)
    (hy : Flat.eval W T (d.call W T r) ρ y = some g₂)
    (h₁ : Follows d R o₁ (Flat.applyValue W (d.call W T r) g₁ []))
    (h₂ : Follows d R o₂ (Flat.applyValue W (d.call W T r) g₂ [])) :
    Follows d R (test >>= fun v => W.truth v >>= fun c => if c then o₁ else o₂)
      (Flat.eval W T (d.call W T r) ρ (branchCall t x y loc)) := by
  have heval : Flat.eval W T (d.call W T r) ρ (branchCall t x y loc) =
      Flat.eval W T (d.call W T r) ρ t >>= fun v => W.truth v >>= fun c =>
        Flat.applyValue W (d.call W T r) (if c then g₁ else g₂) [] := by
    have hb : (Symbol.builtin "switch").isBuiltin = true := rfl
    simp only [branchCall, Flat.switch, Flat.eval, Flat.evals, Flat.readSymbol_builtin hT hρ, hx, hy,
      Option.bind_eq_bind, Option.bind_some, Option.pure_def, Flat.applyValue, hb, if_true,
      Option.bind_assoc]
    refine congrArg _ (funext fun v => ?_)
    simp only [Flat.applyBuiltin, Symbol.builtin, if_true, List.nil_append]
    cases W.truth v <;> rfl
  rw [heval]
  refine ht.bind fun v w hv => ?_
  rw [W.truth_rel hv]
  cases W.truth w with
  | none => exact .none
  | some c =>
    cases c with
    | true => exact h₁
    | false => exact h₂

/-- Statements that hand values over for names, as flat code does in a tuple or alone. -/
inductive Hands (T : Table) (env : Surface.Bindings α) (xs : List String)
    (value : List (Flat.Val α) → Flat.Val α) : Surface.Flow α → Flat.Val α → Prop
  | mk {env' us} (h : Given T env xs env' us) : Hands T env xs value (.next env' none) (value us)

/-- What statements come to and what their items do, where some names may have changed: both go on in
environments that agree, with related values, or the statements return what the last item yields. -/
inductive FlowRel (T : Table) (names : List String) (Γ : Ctx) (env : Surface.Bindings α)
    (changed : List String) :
    Bool → Surface.Flow α → Flat.Bindings α × Option (Flat.Val α) → Prop
  | next {env' ρ' last last'} (agrees : Agrees T names Γ env' ρ')
      (related : Option.Rel (ValRel T) last last')
      (kept : ∀ x, x ∉ changed → env'.lookup x = env.lookup x) :
      FlowRel T names Γ env changed false (.next env' last) (ρ', last')
  | back {v w ρ'} (value : ValRel T v w) : FlowRel T names Γ env changed true (.back v) (ρ', some w)

/-- Statements and their items, at any stage. -/
def BlockKeeps (d : Direction) (W : World α) (T : Table) (names : List String) (b : List Stmt) : Prop :=
  ∀ {r Γ Γ' env ρ items L last last'}, BlockCode T Γ b items L Γ' → (∀ r' ≤ r, Calls d W T r') →
    Agrees T names Γ env ρ → Option.Rel (ValRel T) last last' →
    Follows d (FlowRel T names Γ' env (blockDeclares b) (blockReturns b))
      (Surface.execBlock W (d.knot W r) env last b) (runItems W T (d.call W T r) ρ last' items)

section Loops

/-- The parameters of a lambda have the values that it is called with. -/
theorem evals_params {formals : List Symbol} (hformals : Formals T formals) {ws : List (Flat.Val α)}
    (hlen : formals.length = ws.length)
    (call : Flat.Fn α → List (Flat.Val α) → Option (Flat.Val α)) :
    Flat.evals W T call (formals.zip ws).reverse (formals.map (.ref loc)) = some ws := by
  have hread : ∀ {as : List Symbol} {us : List (Flat.Val α)}, as.length = us.length →
      as.zip us ⊆ formals.zip ws →
      Flat.evals W T call (formals.zip ws).reverse (as.map (.ref loc)) = some us := by
    intro as us h hsub
    induction as generalizing us with
    | nil =>
      cases us with
      | nil => rfl
      | cons u us => cases h
    | cons a as ih =>
      cases us with
      | nil => cases h
      | cons u us =>
        rw [List.zip_cons_cons, List.cons_subset] at hsub
        have hget := get?_zip_reverse hformals.generated hformals.distinct hsub.1
        have hc := hformals.table a (List.of_mem_zip hsub.1).1
        simp [Flat.evals, Flat.eval, readSymbol_of_get? hc hget, ih (by simpa using h) hsub.2]
  exact hread hlen (List.Subset.refl _)

variable {taken given : List String} {formals exits updated : List Symbol} {t : Expr} {t' code : Node}
  {b : List Stmt} {items : List Item} {next loop : Made} {L R : List Made} {sp : Surface.Span}
  {vs : List (Surface.Val α)} {ws : List (Flat.Val α)}

/-- Where a loop begins a turn, its parameters have the values of its names. -/
theorem loop_start (hlen : taken.length = formals.length) (hformals : Formals T formals)
    (hvs : taken.map (env.lookup ·) = vs.map some) (hrel : List.Forall₂ (ValRel T) vs ws)
    (hhidden : ∀ x ∈ names, Γ.visible x = false →
      env.lookup x = none ∧ T.contains (.global x) = false) :
    Agrees T names (Γ.inner (paramBindings taken formals) [] formals) env
      (formals.zip ws).reverse := by
  have hinner : Agrees T names (Γ.inner (paramBindings taken formals) [] formals)
      ((taken.zip vs).reverse ++ env)
      ((([] : List (String × Symbol)).map (·.2) ++ formals).zip ([] ++ ws)).reverse :=
    .inner (.inner fun p hp => .inl (paramBindings_mem hp)) (by simpa using hformals) hlen
      (fun x _ => rfl) rfl .nil (by simpa using congrArg List.length hvs) hrel hhidden
  exact hinner.congr fun x _ => (lookup_zip_reverse hvs (fun _ _ => rfl) x).symm

/-- The names of a loop have the values that its end hands over. -/
theorem given_unchanged (hΓ : Agrees T names Γ env ρ) (hs : Γ.Have given exits) (hx : given ⊆ names) :
    ∃ us, Given T env given env us ∧
      ∀ call loc, Flat.evals W T call ρ (exits.map (.ref loc)) = some us := by
  obtain ⟨vs, us, hvs, hrel, heval⟩ := hΓ.readAll (fun x hxs => hx hxs) hs
  exact ⟨us, ⟨⟨vs, hvs, hrel⟩, fun _ _ => rfl⟩, heval W⟩

/-- What a later turn hands over is handed over by all turns together. -/
theorem Hands.trans {flow : Surface.Flow α} {value : List (Flat.Val α) → Flat.Val α} {w : Flat.Val α}
    (h : Hands T env' given value flow w) (hkept : ∀ x, x ∉ given → env'.lookup x = env.lookup x) :
    Hands T env given value flow w := by
  cases h with
  | mk h => exact .mk ⟨h.values, fun x hx => (h.kept x hx).trans (hkept x hx)⟩

theorem exec_whileLoop (W : World α) (K : Surface.Knot α) (env : Surface.Bindings α) :
    Surface.exec W K env (.whileLoop sp t b []) = Surface.eval W K env t >>= fun v =>
      W.truth v >>= fun c =>
        if c then Surface.execBlock W K env none b >>= fun flow =>
          flow.andThen (K.again (.whileLoop sp t b []))
        else some (.next env none) := by
  simp only [Surface.exec]
  rfl

/-- A loop and the call of its lambda hand over the same values, however many turns they take. -/
theorem loop_follows (hT : T.IsPlain) (hlen : taken.length = formals.length)
    (hformals : Formals T formals)
    (hexits : (Γ.inner (paramBindings taken formals) [] formals).Have given exits)
    (ht : ExprCode T (Γ.inner (paramBindings taken formals) [] formals) t t' L)
    (hb : BlockCode T (Γ.inner (paramBindings taken formals) [] formals) b items R Δ)
    (hreturns : blockReturns b = false) (hupdated : Δ.Have taken updated)
    (hcode : group items
      (some (.apply loc (.ref loc loop.lambda.ref) (updated.map (.ref loc)) false)) loc = .ok code)
    (hnext : next.lambda = ⟨next.lambda.ref, formals, code, loc⟩)
    (hloop : loop.lambda =
      ⟨loop.lambda.ref, formals, turnCode loc t' next.lambda.ref formals exits, loc⟩)
    (hfound : ∀ m ∈ [next, loop], T.find? m.lambda.ref = some m.lambda)
    (hkeeps : BlockKeeps d W T names b) (hm : t.mentions ⊆ names) (htaken : taken ⊆ names)
    (hgiven : given ⊆ taken) (hassigned : ∀ x, x ∈ blockDeclares b → x ∈ given)
    (hvisible : ∀ x ∈ given, Γ.visible x = true) (hcalls : ∀ r' ≤ r, Calls d W T r')
    (hvs : taken.map (env.lookup ·) = vs.map some) (hrel : List.Forall₂ (ValRel T) vs ws)
    (hhidden : ∀ x ∈ names, Γ.visible x = false →
      env.lookup x = none ∧ T.contains (.global x) = false) :
    Follows d (Hands T env given .tuple) (Surface.exec W (d.knot W r) env (.whileLoop sp t b []))
      (d.call W T r ⟨loop.lambda.ref, []⟩ ws) := by
  induction r using Nat.strongRecOn generalizing env vs ws with
  | ind r ih =>
    have hstart := loop_start hlen hformals hvs hrel hhidden
    have hws : formals.length = ws.length := by
      rw [← hlen, ← hrel.length_eq]
      simpa using congrArg List.length hvs
    have hparams : ∀ m ∈ [next, loop], m.lambda.params = formals := by
      simp only [List.mem_cons, List.not_mem_nil, or_false, forall_eq_or_imp, forall_eq]
      exact ⟨by rw [hnext], by rw [hloop]⟩
    -- The lambda of the loop chooses between a turn and the end.
    refine entered (hfound loop (by simp)) (by simp [hparams, hws]) fun r₁ hr₁ hlt₁ hknot₁ => ?_
    rw [hparams loop (by simp), show loop.lambda.body = turnCode loc t' next.lambda.ref formals exits
      by rw [hloop], ← hknot₁, exec_whileLoop]
    obtain ⟨us, hus, hevals⟩ := given_unchanged (W := W) hstart hexits fun x hx => htaken (hgiven hx)
    have hgo : Flat.eval W T (d.call W T r₁) (formals.zip ([] ++ ws)).reverse
        (.closure loc next.lambda.ref (formals.map (.ref loc))) = some (.fn ⟨next.lambda.ref, ws⟩) := by
      simp [Flat.eval, evals_params hformals hws]
    have hstop : Flat.eval W T (d.call W T r₁) (formals.zip ([] ++ ws)).reverse
        (.closure loc Flat.identity [.tuple loc (exits.map (.ref loc))]) =
          some (.fn ⟨Flat.identity, [.tuple us]⟩) := by
      simp [Flat.eval, Flat.evals, hevals]
    refine choice_follows hT hstart.generated (ExprCode.keeps hT (hcalls r₁ hr₁) hstart t ht hm) hgo
      hstop ?_ ?_
    · -- A turn runs the body and calls the loop again.
      rw [applyValue_lambda hT (hfound next (by simp))]
      refine entered (hfound next (by simp)) (by simp [hparams, hws]) fun r₂ hr₂ hlt₂ hknot₂ => ?_
      rw [hparams next (by simp), show next.lambda.body = code by rw [hnext], Flat.eval_group hcode,
        ← hknot₂, List.append_nil]
      refine (hkeeps hb (fun r' hr' => hcalls r' (by omega)) hstart .none).bind ?_
      intro flow p hflow
      rw [hreturns] at hflow
      cases hflow with
      | @next env' ρ' _ last' hagrees _ hkept =>
        have hkept' : ∀ x, x ∉ given → env'.lookup x = env.lookup x := fun x hx =>
          hkept x fun hd => hx (hassigned x hd)
        obtain ⟨vs', ws', hvs', hrel', hevals'⟩ := hagrees.readAll (fun x hx => htaken hx) hupdated
        have hagain : Flat.finish W T (d.call W T r₂)
            (some (.apply loc (.ref loc loop.lambda.ref) (updated.map (.ref loc)) false)) (ρ', last') =
            d.call W T r₂ ⟨loop.lambda.ref, []⟩ ws' := by
          have href : T.contains loop.lambda.ref = true := contains_of_find (hfound loop (by simp))
          simp [Flat.finish, Flat.eval, Flat.readSymbol, href, hevals',
            applyValue_lambda hT (hfound loop (by simp))]
        rw [hagain]
        refine Follows.again (T := T) fun r₃ hr₃ hlt₃ hcall₃ => ?_
        have hlt : r₃ < r := by
          cases d with
          | forth => exact Nat.lt_of_lt_of_le (hlt₃ rfl) (Nat.le_trans hr₂ hr₁)
          | back => exact Nat.lt_of_le_of_lt (Nat.le_trans hr₃ hr₂) (hlt₁ rfl)
        rw [← hcall₃]
        refine (ih r₃ hlt (fun r' hr' => hcalls r' (by omega)) hvs' hrel' fun x hx hv => ?_).imp
          fun flow w hw => hw.trans hkept'
        have hx' : x ∉ given := fun hg => by rw [hvisible x hg] at hv; cases hv
        exact ⟨(hkept' x hx').trans (hhidden x hx hv).1, (hhidden x hx hv).2⟩
    · -- The end hands over the values that the names have.
      have hidentity : Flat.applyValue W (d.call W T r₁) (.fn ⟨Flat.identity, [.tuple us]⟩) [] =
          some (.tuple us) := rfl
      rw [hidentity]
      exact .some (.mk hus)

end Loops

end Hoist.Lowering
