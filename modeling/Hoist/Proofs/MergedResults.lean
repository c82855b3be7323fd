import Hoist.Proofs.Lowering.Reached
import Hoist.Proofs.Lowering.Rebinding

/-!
# What conditionals and loops give back

A conditional whose branches do not return, and a loop, give back the names that are assigned inside
them, at any depth but in nested functions. Behind the statement such a name is bound to a new symbol,
which receives what the last statement that binds the name in the taken branch, or in the last turn,
has bound it to.

All other names stay as they are. A nested function counts as one of these: in a branch or a loop it is
bound in the inner frame only, and the name that it rebinds there has its old value behind the
statement.
-/

namespace Hoist.Lowering

open Hoist.Flat (Symbol Node Location Table Lambda)
open Hoist.Surface (Expr Stmt Params blockReads blockAssigns blockReturns blockDeclares blockTargets)

section Conditionals

variable {env : Env} {loc : Option Location} {c : Expr} {b o : List Stmt} {T : Table}
  {s t : State} {items : List Item} {tag : String} {x : String}

/-- A branch that does not return, from its opening to its lambda, whose code ends in a result. -/
structure BranchPass (env : Env) (loc : Option Location) (tag : String) (b : List Stmt) (T : Table)
    (s : State) where
  branch : Lower.Branch
  after : State
  lowers : Yields (Lower.lowerBranch tag (Lower.lowerBlock env b)) s branch after
  opened : State
  left : State
  runs : Yields (Lower.lowerBlock env b) opened branch.items left
  ends : branch.body = left.body
  result : Node
  code : Node
  groups : group branch.items (some result) loc = .ok code
  defines : branch.body.lambda [] code (code.loc.or loc) ∈ T.lambdas
  captured : List Node

/-- The value of the lambda of a branch. -/
def BranchPass.value (p : BranchPass env loc tag b T s) : Node :=
  closureNode (p.code.loc.or loc) p.branch.body.dest p.captured

/-- A conditional that does not return: its test, its branches, and what it makes of them. -/
structure IfPass (env : Env) (loc : Option Location) (c : Expr) (b o : List Stmt) (s t : State)
    (items : List Item) where
  test : Node
  tested : State
  tests : Yields (Lower.lowerExpr env c) s test tested
  whenTrue : BranchPass env loc "then" b t.table tested
  whenFalse : BranchPass env loc "else" o t.table whenTrue.after
  merges : Yields (Lower.mergeBranches env loc test whenTrue.branch whenFalse.branch)
    whenFalse.after items t

namespace IfPass

/-- The call of the branch that the test selects. -/
def call (p : IfPass env loc c b o s t items) : Node :=
  branchCall p.test p.whenTrue.value p.whenFalse.value loc

/-- A name is bound to a new symbol, which receives from the call what was bound last in the branch
that is taken. -/
structure GivesBack (p : IfPass env loc c b o s t items) (x : String) (a whenTrue whenFalse : Symbol) :
    Prop where
  current : t.sees x = some a
  fresh : s.issued < a.token
  fromTrue : Receives items p.call a p.whenTrue.result whenTrue
  lastTrue : LastBinding env b p.whenTrue.opened p.whenTrue.left x whenTrue
  fromFalse : Receives items p.call a p.whenFalse.result whenFalse
  lastFalse : LastBinding env o p.whenFalse.opened p.whenFalse.left x whenFalse

end IfPass

/-- The run of a branch that was lowered, and the bindings its frame has kept since. -/
theorem lowerBranch_pass {u : State} {br : Lower.Branch} (hs : Valid s)
    (h : Yields (Lower.lowerBranch tag (Lower.lowerBlock env b)) s br u) :
    ∃ opened left, Valid opened ∧ opened.body.topLevel = false ∧
      Yields (Lower.lowerBlock env b) opened br.items left ∧ br.body = left.body ∧
      u.scopes.own br.body.frame = left.own := by
  obtain ⟨v, ho, hiff⟩ := lowerBranch_iff hs tag (Lower.lowerBlock env b)
  obtain ⟨w, hw, hbody, rfl⟩ := (hiff br u).1 h
  refine ⟨v, w, ho.valid (issued_reads hs).valid, by rw [ho.body], hw, hbody, ?_⟩
  rw [hbody]
  rfl

/-- The symbol in the result of a branch that stands for a name it assigns. -/
theorem symbol_at {names : List String} {syms : List Symbol} {f : String → Option Symbol} {i : Nat}
    (h : names.map f = syms.map some) (hx : names[i]? = some x) :
    ∃ a, syms[i]? = some a ∧ f x = some a := by
  have hi : (names.map f)[i]? = some (f x) := by rw [List.getElem?_map, hx, Option.map_some]
  rw [h, List.getElem?_map, Option.map_eq_some_iff] at hi
  obtain ⟨a, ha, hfa⟩ := hi
  exact ⟨a, ha, hfa.symm⟩

/-- A conditional gives back the names that its branches assign. -/
theorem lowerIf_givesBack (hx : env.expansions = []) (hs : Valid s)
    (h : Yields (do
      let test ← Lower.lowerExpr env c
      let whenTrue ← Lower.lowerBranch "then" (Lower.lowerBlock env b)
      let whenFalse ← Lower.lowerBranch "else" (Lower.lowerBlock env o)
      Lower.mergeBranches env loc test whenTrue whenFalse) s items t)
    (hr : blockReturns b = false) :
    (∀ x, x ∈ blockTargets b ++ blockTargets o ↔ x ∈ blockAssigns b) ∧
    ∃ p : IfPass env loc c b o s t items, ∀ x ∈ blockAssigns b, ∃ a cT cF, p.GivesBack x a cT cF := by
  simp only [Yields.bind_iff] at h
  obtain ⟨n, s₁, hn, T, s₂, hT, F, s₃, hF, hm⟩ := h
  have h₁ := lowerExpr_reads hx c hs hn
  obtain ⟨h₂, -, lT⟩ := lowerBranch_reads h₁.valid (lowerBlock_acts hx b) hT
  obtain ⟨h₃, hlF, lF⟩ := lowerBranch_reads h₂.valid (lowerBlock_acts hx o) hF
  obtain ⟨uT, wT, vT, topT, runT, bodyT, ownT⟩ := lowerBranch_pass h₁.valid hT
  obtain ⟨uF, wF, vF, topF, runF, bodyF, ownF⟩ := lowerBranch_pass h₂.valid hF
  have hleT := lT.reserved.le
  obtain ⟨⟨hret, hperm⟩, u, nT, nF, hu, hle, builtT, builtF, hend⟩ := mergeBranches_built h₃.valid
    (lT.advance h₂.valid h₃.advances) lF (by omega) hm
  obtain ⟨resultT, codeT, capturedT, groupT, rfl, definesT, endT⟩ := builtT.built
  obtain ⟨resultF, codeF, capturedF, groupF, rfl, definesF, endF⟩ := builtF.built
  have hassigned := hperm
  rw [lT.assigned, lF.assigned, perm_noteAll_iff] at hassigned
  simp only [hr, Bool.false_eq_true, if_false] at hret endT endF
  obtain ⟨symsT, hsymsT, rfl⟩ := endT
  obtain ⟨symsF, hsymsF, rfl⟩ := endF
  -- The true branch is left alone while the false one is lowered.
  rw [show s₃.scopes.own T.body.frame = wT.own from
    (funext (lT.own_eq h₃.advances)).trans ownT] at hsymsT
  rw [ownF] at hsymsF
  have htargets := fun x => lowerBlock_targets hx (fun st _ => lowerStmt_targets hx st) vT topT runT hr x
  have htargets' := fun x =>
    lowerBlock_targets hx (fun st _ => lowerStmt_targets hx st) vF topF runF hret x
  refine ⟨fun x => by rw [List.mem_append, htargets, htargets', ← hassigned, or_self], ?_⟩
  refine ⟨⟨n, s₁, hn, ⟨T, s₂, hT, uT, wT, runT, bodyT, _, codeT, groupT, definesT, capturedT⟩,
    ⟨F, s₃, hF, uF, wF, runF, bodyF, _, codeF, groupF, definesF, capturedF⟩, hm⟩, fun x hxb => ?_⟩
  have hmem : x ∈ T.body.assigned := by
    rw [lT.assigned]
    simpa using hxb
  obtain ⟨i, hi⟩ := List.mem_iff_getElem?.1 hmem
  obtain ⟨cT, hcT, hownT⟩ := symbol_at hsymsT hi
  obtain ⟨cF, hcF, hownF⟩ := symbol_at hsymsF hi
  obtain ⟨aT, lastT⟩ := lowerBlock_lastBinding hx vT topT runT
    (blockAssigns_subset_blockDeclares b hxb)
  obtain ⟨aF, lastF⟩ := lowerBlock_lastBinding hx vF topF runF
    (blockAssigns_subset_blockDeclares o ((hassigned x).1 hxb))
  obtain rfl : aT = cT := Option.some.inj (lastT.behind.symm.trans hownT)
  obtain rfl : aF = cF := Option.some.inj (lastF.behind.symm.trans hownF)
  rw [hr] at hend
  obtain ⟨hre, hat⟩ := bindResults_own hend
  have hnodup : T.body.assigned.Nodup := by
    rw [lT.assigned]
    exact nodup_noteAll .nil
  obtain ⟨a, ha, hreceives⟩ := hat rfl hnodup i x hi
  obtain ⟨a', ha', hlt⟩ := hre.renews x (by simpa using hmem)
  obtain rfl : a' = a := Option.some.inj (ha'.symm.trans ha)
  have hlen : ∀ {syms : List Symbol} {f : String → Option Symbol},
      T.body.assigned.map f = syms.map some → syms.length = T.body.assigned.length := by
    intro syms f hf
    simpa using (congrArg List.length hf).symm
  exact ⟨a', aT, aF,
    { current := by rw [State.sees_eq, ha, Option.some_or]
      fresh := by
        have h₀ := ((h₁.advances.trans h₂.advances).trans h₃.advances).issued
        omega
      fromTrue := hreceives loc symsT aT (hlen hsymsT) hcT
      lastTrue := lastT
      fromFalse := hreceives loc symsF aF (hlen hsymsF) hcF
      lastFalse := lastF }⟩

end Conditionals

section Loops

variable {env : Env} {loc : Option Location} {c : Expr} {b : List Stmt} {s t : State}
  {items : List Item} {x : String}

/-- The inside of a loop: its parameters are bound, the exit values taken, test and body lowered, and
the values of the next turn read. -/
structure LoopTurn (p : LoopRun env loc (Lower.lowerExpr env c) (Lower.lowerBlock env b) s t items) where
  formed : State
  tested : State
  ran : State
  body : List Item
  updated : List Node
  forms : Yields (Lower.bindFreshAll p.vars.taken) p.opened p.parts.formals formed
  exits : Yields (Lower.currents loc p.vars.given) formed p.parts.exits formed
  tests : Yields (Lower.lowerExpr env c) formed p.parts.test tested
  runs : Yields (Lower.lowerBlock env b) tested body ran
  updates : Yields (Lower.readNames loc p.vars.taken) ran updated p.left
  groups : group body (some (.apply loc (.ref loc (loopRef p.entered)) updated false)) loc =
    .ok p.parts.code
  next : continueLambda p.entered p.parts loc ∈ t.table.lambdas
  loop : loopLambda p.entered p.parts loc ∈ t.table.lambdas

/-- A name is bound to a new symbol, which receives from the call of the loop a parameter of it. For
the next turn this parameter gets what was bound last in the turn before. -/
structure LoopTurn.GivesBack
    {p : LoopRun env loc (Lower.lowerExpr env c) (Lower.lowerBlock env b) s t items} (q : LoopTurn p)
    (x : String) (a formal last : Symbol) (i : Nat) : Prop where
  current : t.sees x = some a
  fresh : s.issued < a.token
  receives : Receives items (.apply loc (.ref loc (loopRef p.entered)) p.initial false) a
    (.tuple loc p.parts.exits) formal
  taken : p.vars.taken[i]? = some x
  formal : p.parts.formals[i]? = some formal
  updated : q.updated[i]? = some (.ref loc last)
  last : LastBinding env b q.tested q.ran x last

/-- A loop gives back the names that its body assigns. -/
theorem lowerLoop_givesBack (hx : env.expansions = []) (hs : Valid s)
    (h : Yields (Lower.lowerLoop env loc (Lower.lowerExpr env c) (Lower.lowerBlock env b)) s items t) :
    (∀ x, x ∈ blockTargets b ↔ x ∈ blockAssigns b) ∧
    ∃ p : LoopRun env loc (Lower.lowerExpr env c) (Lower.lowerBlock env b) s t items, ∃ q : LoopTurn p,
      ∀ x ∈ blockAssigns b, ∃ a formal last i, q.GivesBack x a formal last i := by
  obtain ⟨p, hp⟩ := lowerLoop_runs hs (lowerExpr_acts hx c) (lowerBlock_acts hx b) h
  have hu := p.opens.valid hp.opening
  obtain ⟨v, v', y, z, inner, updated, hf, hc, ht, hi, hup, hg⟩ := lowerInside_iff.1 p.inside
  have e₁ := bindFreshAll_effect hu hf
  obtain ⟨⟨exits, hexits, hexits'⟩, rfl⟩ := (currents_iff e₁.valid).1 hc
  have e₂ := lowerExpr_reads hx c e₁.valid ht
  have htop : y.body.topLevel = false := by
    rw [e₂.advances.body.topLevel, e₁.advances.body.topLevel, p.opens.body]
  have e₃ := lowerBlock_acts hx b e₂.valid htop hi
  have herr : y.body.returnError.isSome = true := by
    rw [e₂.advances.body.returnError, e₁.advances.body.returnError, p.opens.body]
    rfl
  have hr := lowerBlock_forbidden hx (fun st _ => lowerStmt_forbidden hx st) e₂.valid htop herr hi
  refine ⟨lowerBlock_targets hx (fun st _ => lowerStmt_targets hx st) e₂.valid htop hi hr, p, ?_⟩
  have htable : t.table.lambdas = p.left.table.lambdas ++
      [continueLambda p.entered p.parts loc, loopLambda p.entered p.parts loc] := by
    rw [assignAll_table p.gives]
    exact p.defined_lambdas
  refine ⟨⟨v, y, z, inner, updated, hf, hc, ht, hi, hup, hg, by simp [htable], by simp [htable]⟩,
    fun x hxb => ?_⟩
  have htaken : p.vars.taken.Nodup := by
    rw [hp.vars]
    exact nodup_noteAll .nil
  have hgiven : p.vars.given.Nodup := by
    rw [hp.vars]
    exact nodup_noteAll .nil
  have hxgiven : x ∈ p.vars.given := by simpa [hp.vars, loopVariables] using hxb
  obtain ⟨i, hi'⟩ := List.mem_iff_getElem?.1
    (show x ∈ p.vars.taken by rw [hp.vars]; simp [loopVariables, hxb])
  obtain ⟨k, hk⟩ := List.mem_iff_getElem?.1 hxgiven
  obtain ⟨formal, hformal, hown⟩ := (bindFreshAll_own hf).2.2 htaken i x hi'
  -- The exit value of the name is its parameter.
  obtain ⟨formal', hformal', hsees⟩ := symbol_at hexits hk
  obtain rfl : formal' = formal := by
    rw [State.sees_eq, hown, Option.some_or] at hsees
    exact (Option.some.inj hsees).symm
  obtain ⟨last, hlast⟩ := lowerBlock_lastBinding hx e₂.valid htop hi
    (blockAssigns_subset_blockDeclares b hxb)
  obtain ⟨hre, hat⟩ := assignAll_own p.gives
  obtain ⟨a, ha, hreceives⟩ := hat hgiven k x hk
  obtain ⟨a', ha', hlt⟩ := hre.renews x hxgiven
  obtain rfl : a' = a := Option.some.inj (ha'.symm.trans ha)
  exact ⟨a', formal', last, i,
    { current := by rw [State.sees_eq, ha, Option.some_or]
      fresh := lt_of_le_of_lt hp.defined.advances.issued hlt
      receives := by
        rw [hexits']
        exact hreceives loc exits formal' hformal'
      taken := hi'
      formal := hformal
      updated := readNames_own e₃.valid hup hi' hlast.behind
      last := hlast }⟩

end Loops

/-- Wherever lowering comes to: behind a conditional that does not return, and behind a loop, each name
that is assigned inside is bound to a new symbol for what it was bound to there last, and each other
name that the frame binds is bound as before. -/
theorem rebindings_givenBack {env : Env} {s : State} (hx : env.expansions = []) (hs : Reached env s) :
    (∀ sp c b o allow items t, Yields (Lower.lowerStmt env (.ifElse sp c b o) allow) s items t →
      blockReturns b = false →
      (∃ p : IfPass env (env.locate sp) c b o s t items,
        ∀ x ∈ blockTargets b ++ blockTargets o, ∃ a whenTrue whenFalse,
          p.GivesBack x a whenTrue whenFalse) ∧
      ∀ x a, x ∉ blockTargets b ++ blockTargets o → s.own x = some a → t.own x = some a) ∧
    ∀ sp c b o allow items t, Yields (Lower.lowerStmt env (.whileLoop sp c b o) allow) s items t →
      (∃ p : LoopRun env (env.locate sp) (Lower.lowerExpr env c) (Lower.lowerBlock env b) s t items,
        ∃ q : LoopTurn p, ∀ x ∈ blockTargets b, ∃ a formal last i, q.GivesBack x a formal last i) ∧
      ∀ x a, x ∉ blockTargets b → s.own x = some a → t.own x = some a := by
  have hvalid := hs.valid hx
  constructor
  · intro sp c b o allow items t h hr
    simp only [Lower.lowerStmt] at h
    obtain ⟨htargets, p, hp⟩ := lowerIf_givesBack hx hvalid h hr
    refine ⟨⟨p, fun x hxt => hp x ((htargets x).1 hxt)⟩, fun x a hxt ha => ?_⟩
    have hre := lowerIf_rebinds hx hvalid h
    rw [hr, if_neg Bool.false_ne_true] at hre
    exact hre.keeps x a (fun hm => hxt ((htargets x).2 hm)) ha
  · intro sp c b o allow items t h
    simp only [Lower.lowerStmt] at h
    split at h
    · simp at h
    · obtain ⟨htargets, p, q, hq⟩ := lowerLoop_givesBack hx hvalid h
      exact ⟨⟨p, q, fun x hxt => hq x ((htargets x).1 hxt)⟩, fun x a hxt ha =>
        (lowerLoop_rebinds hx hvalid h).keeps x a (fun hm => hxt ((htargets x).2 hm)) ha⟩

section Examples

/-- The inside of a function `f` of a unit without a text, once its parameters are bound. -/
def insideOf (params : List String) : State :=
  match Lower.closureBody (some "f") (some (.global "f")) (rootState {} "") with
  | .ok child t => (Lower.bindFreshAll params).after (t.resume { child with returnError := none })
  | .error _ t => t

theorem bindFreshAll_reached {env : Env} {s t : State} {xs : List String} {syms : List Symbol}
    (hs : Reached env s) (h : Yields (Lower.bindFreshAll xs) s syms t) : Reached env t := by
  induction xs generalizing s syms with
  | nil =>
    obtain ⟨-, rfl⟩ := Yields.pure_iff.1 h
    exact hs
  | cons x xs ih =>
    simp only [Lower.bindFreshAll, Yields.bind_iff, Yields.pure_iff] at h
    obtain ⟨a, u, hx, as, v, hxs, -, rfl⟩ := h
    exact ih (.bind hs hx) hxs

theorem insideOf_reached {env : Env} (hx : env.expansions = []) (params : List String) :
    Reached env (insideOf params) := by
  have hroot : Reached env (rootState {} "") := .unit (by simp [Flat.Table.empty]) .nil
  obtain ⟨u, -, hopen⟩ := closureBody_opens (hroot.valid hx) (.global "f") (Nat.zero_le _) (some "f")
    none
  have hbody : Reached env ((u.resume (rootState {} "").body).resume
      { { u.body with returnError := (rootState {} "").body.returnError } with returnError := none }) :=
    .function hroot (Nat.zero_le _) hopen
  obtain ⟨syms, t, hbind⟩ := bindFreshAll_ok (hbody.valid hx) params
  have hinside : insideOf params = t := by
    unfold insideOf
    unfold Yields at hopen
    rw [hopen]
    exact hbind.after
  rw [hinside]
  exact bindFreshAll_reached hbody hbind

/-- A conditional that assigns a name in both branches. -/
def assignEither : Stmt :=
  .ifElse ⟨0, 0⟩ (.name ⟨0, 0⟩ "c") [.assign ⟨0, 0⟩ [.name ⟨0, 0⟩ "x"] (.constant ⟨0, 0⟩ (.int 1))]
    [.assign ⟨0, 0⟩ [.name ⟨0, 0⟩ "x"] (.constant ⟨0, 0⟩ (.int 2))]

/-- Behind the conditional the name is bound to what the taken branch assigned. -/
theorem assignEither_givenBack : ∃ items t, ∃ p : IfPass plainEnv (plainEnv.locate ⟨0, 0⟩)
    (.name ⟨0, 0⟩ "c") [.assign ⟨0, 0⟩ [.name ⟨0, 0⟩ "x"] (.constant ⟨0, 0⟩ (.int 1))]
    [.assign ⟨0, 0⟩ [.name ⟨0, 0⟩ "x"] (.constant ⟨0, 0⟩ (.int 2))] (insideOf ["c", "x"]) t items,
    ∃ a whenTrue whenFalse, p.GivesBack "x" a whenTrue whenFalse := by
  have hlow : (match Lower.lowerStmt plainEnv assignEither false (insideOf ["c", "x"]) with
    | .ok _ _ => true
    | .error _ _ => false) = true := by decide +kernel
  split at hlow
  · rename_i items t h
    have hreached : Reached plainEnv (insideOf ["c", "x"]) := insideOf_reached rfl _
    obtain ⟨hif, -⟩ := rebindings_givenBack rfl hreached
    obtain ⟨⟨p, hp⟩, -⟩ := hif _ _ _ _ _ _ _ h rfl
    exact ⟨items, t, p, hp "x" (by simp [blockTargets, Stmt.targets, Stmt.assigns])⟩
  · cases hlow

/-- A function of one parameter that returns the value of a name. -/
def reading (f x : String) : Stmt :=
  .functionDef ⟨0, 0⟩ f { positional := [⟨⟨0, 0⟩, "x"⟩] }
    [.returnValue ⟨0, 0⟩ (some (.name ⟨0, 0⟩ x))] []

/-- A name that both branches of a conditional define a function under is not bound anew behind it,
although it was declared before. -/
theorem branch_function_dropped : ¬ ∀ env s c b o items t x, env.expansions = [] → Reached env s →
    Yields (Lower.lowerStmt env (.ifElse ⟨0, 0⟩ c b o) false) s items t → blockReturns b = false →
    s.visible x = true → x ∈ blockDeclares b → ∃ a, t.sees x = some a ∧ s.issued < a.token := by
  intro h
  have hlow : (match Lower.lowerStmt plainEnv (.ifElse ⟨0, 0⟩ (.name ⟨0, 0⟩ "c") [reading "g" "x"]
      [reading "g" "c"]) false (insideOf ["c", "g"]) with
    | .ok _ t => (t.sees "g").any fun a => a.token ≤ (insideOf ["c", "g"]).issued
    | .error _ _ => false) = true := by decide +kernel
  split at hlow
  · rename_i items t hyields
    obtain ⟨a, ha, hlt⟩ := h plainEnv (insideOf ["c", "g"]) _ _ _ items t "g" rfl
      (insideOf_reached rfl ["c", "g"]) hyields rfl (by decide +kernel)
      (by simp [blockDeclares, reading, Stmt.declares])
    rw [ha, Option.any_some, decide_eq_true_eq] at hlow
    omega
  · cases hlow

end Examples

end Hoist.Lowering
