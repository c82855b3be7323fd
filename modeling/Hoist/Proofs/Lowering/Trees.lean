import Hoist.Proofs.Lowering.Loops
import Hoist.Proofs.Surface.Accepted

/-!
# Effects of trees

An expression reads its names, and a statement has the effect that its tree tells: by induction along
expressions and statements, from the effects of closures, conditionals and loops.
-/

namespace Hoist.Lowering

open Hoist.Flat (Symbol Node Location Space Table Lambda)
open Hoist.Surface (Expr Stmt Operator Params Module allReads optReads blockReads blockAssigns
  blockReturns blockDeclares)

section Checks

variable {s t : State} {env : Env} {loc : Option Location} {a : Unit}

theorem requirePositional_iff {ps : Params Expr} :
    Yields (Lower.requirePositional ps loc) s a t ↔ ps.isPositional = true ∧ s = t := by
  unfold Lower.requirePositional Params.isPositional
  cases ps.vararg? <;> cases ps.kwarg? <;> cases ps.keywordOnly <;> cases ps.defaults <;>
    cases ps.keywordDefaults <;> simp

theorem refuseStarred_iff {es : List Expr} :
    Yields (Lower.refuseStarred env es) s a t ↔
      (∀ sp v, Expr.starred sp v ∉ es) ∧ s = t := by
  induction es with
  | nil => simp [Lower.refuseStarred]
  | cons e es ih =>
    cases e <;> simp [Lower.refuseStarred, ih]
    intro h
    exact absurd rfl ((h _ _).1 rfl)

theorem operatorNode_iff {op : Operator} {n : Node} :
    Yields (Lower.operatorNode op loc) s n t ↔
      ∃ f, op.builtin? = some f ∧ .ref loc (.builtin f) = n ∧ s = t := by
  unfold Lower.operatorNode
  split <;> simp_all

theorem expansionOf?_eq_none (h : env.expansions = []) (e : Expr) :
    Lower.expansionOf? env e = none := by
  cases e <;> simp [Lower.expansionOf?, h]

end Checks

section Expressions

variable {s t : State} {env : Env} {n : Node} {ns : List Node}

theorem lowerExprs_reads {es : List Expr}
    (ih : ∀ e ∈ es, ∀ {s n t}, Valid s → Yields (Lower.lowerExpr env e) s n t → Reads e.reads s t)
    (hs : Valid s) (h : Yields (Lower.lowerExprs env es) s ns t) : Reads (allReads es) s t := by
  induction es generalizing s ns with
  | nil =>
    obtain ⟨-, rfl⟩ := Yields.pure_iff.1 h
    exact .refl hs
  | cons e es ihs =>
    simp only [Lower.lowerExprs, Yields.bind_iff, Yields.pure_iff] at h
    obtain ⟨n, u, he, ns, v, hes, -, rfl⟩ := h
    have h₁ := ih e (by simp) hs he
    exact h₁.trans hs (ihs (fun e' he' => ih e' (List.mem_cons_of_mem _ he')) h₁.valid hes)

/-- A part of a slice, or the value that stands for it when it is missing. -/
def Lower.lowerOption (env : Env) (o : Option Expr) (v : Literal) : Lower Node :=
  match o with
  | some x => lowerExpr env x
  | none => missing v

theorem lowerExpr_slice {sp : Surface.Span} {a b c : Option Expr} :
    Lower.lowerExpr env (.slice sp a b c) = (do
      let a ← Lower.lowerOption env a (.int 0)
      let b ← Lower.lowerOption env b .none
      let c ← Lower.lowerOption env c (.int 1)
      return .apply (env.locate sp) (.ref (env.locate sp) Flat.slice) [a, b, c] false) := by
  cases a <;> cases b <;> cases c <;> simp [Lower.lowerExpr, Lower.lowerOption, Expr.span]

theorem lowerOption_reads {o : Option Expr} {v : Literal}
    (ih : ∀ e ∈ o, ∀ {s n t}, Valid s → Yields (Lower.lowerExpr env e) s n t → Reads e.reads s t)
    (hs : Valid s) (h : Yields (Lower.lowerOption env o v) s n t) : Reads (optReads o) s t := by
  cases o with
  | none =>
    obtain ⟨-, rfl⟩ := Yields.pure_iff.1 h
    exact .refl hs
  | some e => exact ih e rfl hs h

/-- Without a name of its own a closure gets a fresh lambda, and reads what its body reads. -/
theorem lowerLambda_reads {params : Params Expr} {code : Lower Node} {loc : Option Location}
    {reads d a : List String} {b : Bool} (hs : Valid s) (hcode : Acts reads d a b code)
    (h : Yields (Lower.lowerClosure env params code loc none none) s n t) :
    Reads (reads.filter (!params.names.contains ·)) s t := by
  rw [lowerClosure_fresh_iff] at h
  have hi := issued_reads hs
  obtain ⟨u, l, hu, hl, hres, rfl⟩ := lowerClosure_reads hi.valid (Reserved.issue hs _ rfl) hcode h
  have hr := hi.trans hs hu
  rw [closureNames, Option.toList_none, List.append_nil, List.nil_append] at hr
  exact hr.defining env (hl ▸ hres) (by rw [hl]; exact Nat.lt_succ_self _)

/-- An expression reads its names, and does nothing else to names. -/
theorem lowerExpr_reads (hx : env.expansions = []) (e : Expr) :
    ∀ {s n t}, Valid s → Yields (Lower.lowerExpr env e) s n t → Reads e.reads s t := by
  induction e using Expr.ind with
  | name sp x =>
    intro s n t hs h
    simp only [Lower.lowerExpr] at h
    exact readName_reads hs h
  | constant sp v =>
    intro s n t hs h
    simp only [Lower.lowerExpr, Yields.pure_iff] at h
    obtain ⟨-, rfl⟩ := h
    exact .refl hs
  | binary sp op l r ihl ihr =>
    intro s n t hs h
    simp only [Lower.lowerExpr, Yields.bind_iff, operatorNode_iff, Yields.pure_iff] at h
    obtain ⟨_, _, ⟨f, -, rfl, rfl⟩, _, u, hl, _, v, hr, -, rfl⟩ := h
    have h₁ := ihl hs hl
    exact h₁.trans hs (ihr h₁.valid hr)
  | unary sp op x ih =>
    intro s n t hs h
    simp only [Lower.lowerExpr, Yields.bind_iff, operatorNode_iff, Yields.pure_iff] at h
    obtain ⟨_, _, ⟨f, -, rfl, rfl⟩, _, u, hx, -, rfl⟩ := h
    exact ih hs hx
  | compare sp l op r ihl ihr =>
    intro s n t hs h
    simp only [Lower.lowerExpr, Yields.bind_iff, operatorNode_iff, Yields.pure_iff] at h
    obtain ⟨_, _, ⟨f, -, rfl, rfl⟩, _, u, hl, _, v, hr, -, rfl⟩ := h
    have h₁ := ihl hs hl
    exact h₁.trans hs (ihr h₁.valid hr)
  | chain sp l rest hlen =>
    intro s n t hs h
    rcases rest with - | ⟨⟨op, r⟩, - | ⟨_, _⟩⟩
    · simp [Lower.lowerExpr] at h
    · simp at hlen
    · simp [Lower.lowerExpr] at h
  | call sp f args ks ihf ihargs =>
    intro s n t hs h
    simp only [Lower.lowerExpr, expansionOf?_eq_none hx] at h
    cases ks with
    | cons k ks => simp at h
    | nil =>
      simp only [List.isEmpty_nil, Bool.not_true, Bool.false_eq_true, if_false, Yields.bind_iff,
        refuseStarred_iff, Yields.pure_iff] at h
      obtain ⟨_, _, ⟨-, rfl⟩, _, u, ha, _, v, hf, -, rfl⟩ := h
      have h₁ := lowerExprs_reads ihargs hs ha
      exact h₁.trans hs (ihf h₁.valid hf)
  | attr sp v name ih =>
    intro s n t hs h
    simp only [Lower.lowerExpr, Yields.bind_iff, Yields.pure_iff] at h
    obtain ⟨_, u, hv, -, rfl⟩ := h
    exact ih hs hv
  | subscript sp v i ihv ihi =>
    intro s n t hs h
    simp only [Lower.lowerExpr, Yields.bind_iff, Yields.pure_iff] at h
    obtain ⟨_, u, hv, _, w, hi, -, rfl⟩ := h
    have h₁ := ihv hs hv
    exact h₁.trans hs (ihi h₁.valid hi)
  | slice sp a b c iha ihb ihc =>
    intro s n t hs h
    simp only [lowerExpr_slice, Yields.bind_iff, Yields.pure_iff] at h
    obtain ⟨_, u, ha, _, v, hb, _, w, hc, -, rfl⟩ := h
    have h₁ := lowerOption_reads iha hs ha
    have h₂ := lowerOption_reads ihb h₁.valid hb
    exact (h₁.trans hs h₂).trans hs (lowerOption_reads ihc h₂.valid hc)
  | extSlice sp es ih =>
    intro s n t hs h
    simp only [Lower.lowerExpr, Yields.bind_iff, Yields.pure_iff] at h
    obtain ⟨_, u, hes, -, rfl⟩ := h
    exact lowerExprs_reads ih hs hes
  | tuple sp es ih =>
    intro s n t hs h
    simp only [Lower.lowerExpr, Yields.bind_iff, Yields.pure_iff] at h
    obtain ⟨_, u, hes, -, rfl⟩ := h
    exact lowerExprs_reads ih hs hes
  | lambda sp ps b ih =>
    intro s n t hs h
    simp only [Lower.lowerExpr, Yields.bind_iff, requirePositional_iff] at h
    obtain ⟨_, _, ⟨-, rfl⟩, h⟩ := h
    exact lowerLambda_reads hs (fun _ _ _ hs _ h => (ih hs h).toEffect) h
  | foreign e hf =>
    intro s n t hs h
    cases e <;> simp [Expr.isForeign] at hf <;> simp [Lower.lowerExpr] at h

theorem lowerExpr_acts (hx : env.expansions = []) (e : Expr) :
    Acts e.reads [] [] false (Lower.lowerExpr env e) :=
  fun _ _ _ hs _ h => (lowerExpr_reads hx e hs h).toEffect

end Expressions

section Statements

variable {env : Env} {loc : Option Location}

theorem lowerAssign_acts (hx : env.expansions = []) (sp : Surface.Span) (target value : Expr) :
    Acts (Stmt.assign sp [target] value).reads (Stmt.assign sp [target] value).assigns
      (Stmt.assign sp [target] value).assigns false (Lower.lowerAssign env loc target value) := by
  intro s items t hs _ h
  unfold Lower.lowerAssign at h
  split at h
  · simp only [Yields.bind_iff, Yields.pure_iff] at h
    obtain ⟨v, u, hv, i, w, hi, -, rfl⟩ := h
    have h₁ := lowerExpr_reads hx value hs hv
    have e := h₁.toEffect.trans hs (assign_effect h₁.valid hi)
    simpa [Stmt.reads, Stmt.assigns] using e
  · split at h
    · simp only [Yields.bind_iff, Yields.pure_iff] at h
      obtain ⟨v, u, hv, o, u', ho, i, u'', hi, item, w, hw, -, rfl⟩ := h
      have h₁ := lowerExpr_reads hx value hs hv
      have h₂ := h₁.trans hs (lowerExpr_reads hx _ h₁.valid ho)
      have h₃ := h₂.trans hs (lowerExpr_reads hx _ h₂.valid hi)
      have e := h₃.toEffect.trans hs (assign_effect h₃.valid hw)
      simpa [Stmt.reads, Stmt.assigns, Expr.reads] using e
    · simp at h
  all_goals simp at h

theorem lowerAugAssign_acts (hx : env.expansions = []) (sp : Surface.Span) (target : Expr)
    (op : Operator) (value : Expr) :
    Acts (Stmt.augAssign sp target op value).reads (Stmt.augAssign sp target op value).assigns
      (Stmt.augAssign sp target op value).assigns false
      (Lower.lowerAugAssign env loc target op value) := by
  intro s items t hs _ h
  unfold Lower.lowerAugAssign at h
  split at h
  · simp only [Yields.bind_iff, Yields.pure_iff, operatorNode_iff] at h
    obtain ⟨v, u, hv, _, _, ⟨f, -, -, rfl⟩, o, u', ho, a, u'', ha, i, w, hi, -, rfl⟩ := h
    have h₁ := lowerExpr_reads hx value hs hv
    have h₂ := h₁.trans hs (readName_reads h₁.valid ho)
    obtain ⟨-, rfl⟩ := (current_iff h₂.valid).1 ha
    have e := h₂.toEffect.trans hs (assign_effect h₂.valid hi)
    simpa [Stmt.reads, Stmt.assigns] using e
  all_goals simp at h

theorem lowerReturn_acts (hx : env.expansions = []) (value : Option Expr) :
    Acts (optReads value) [] [] true (Lower.lowerReturn env loc value) := by
  intro s items t hs _ h
  unfold Lower.lowerReturn at h
  simp only [Yields.bind_iff, Yields.body_iff] at h
  obtain ⟨_, _, ⟨rfl, rfl⟩, h⟩ := h
  split at h
  · simp at h
  · simp only [Yields.bind_iff, Yields.modifyBody_iff] at h
    obtain ⟨_, _, rfl, h⟩ := h
    have hr := returning_effect hs true
    cases value with
    | none =>
      obtain ⟨-, rfl⟩ := Yields.pure_iff.1 h
      exact hr
    | some e =>
      simp only [Yields.bind_iff, Yields.pure_iff] at h
      obtain ⟨_, u, he, -, rfl⟩ := h
      exact hr.thenReads hs (lowerExpr_reads hx e hr.valid he)

/-- The body of a function: its items, grouped without a result. -/
def Lower.functionBody (statements : Lower (List Item)) (loc : Option Location) : Lower Node := do
  let items ← statements
  ofExcept (group items none loc)

theorem functionBody_iff {statements : Lower (List Item)} {s t : State} {n : Node} :
    Yields (Lower.functionBody statements loc) s n t ↔
      ∃ items, Yields statements s items t ∧ group items none loc = .ok n := by
  simp only [Lower.functionBody, Yields.bind_iff, Yields.ofExcept_iff]
  constructor
  · rintro ⟨items, _, h, hg, rfl⟩; exact ⟨items, h, hg⟩
  · rintro ⟨items, h, hg⟩; exact ⟨items, t, h, hg, rfl⟩

theorem functionBody_acts (loc : Option Location) {statements : Lower (List Item)}
    {reads d a : List String} {b : Bool}
    (h : Acts reads d a b statements) : Acts reads d a b (Lower.functionBody statements loc) := by
  intro s n t hs htop hn
  obtain ⟨items, hi, -⟩ := functionBody_iff.1 hn
  exact h hs htop hi

/-- Inside a function, a definition issues the symbol of its lambda, binds its name and lifts its
body. -/
theorem lowerFunction_iff {s t : State} {f : String} {ps : Params Expr} {ds : List Expr} {ad : Bool}
    {statements : Lower (List Item)} {items : List Item} (htop : s.body.topLevel = false) :
    Yields (Lower.lowerFunction env loc f ps ds ad statements) s items t ↔
      ps.isPositional = true ∧ (ad = true ∨ ds = []) ∧ ∃ a u n,
        Yields (Lower.bindFresh f) s.issuing a u ∧
        Yields (Lower.lowerClosure env ps (Lower.functionBody statements loc) loc (some f)
          (some (Flat.fresh s.issued f .global_))) u n t ∧ items = [.assign ⟨a, n, loc⟩] := by
  have hds : (!ad && !ds.isEmpty) = true ↔ ¬ (ad = true ∨ ds = []) := by
    cases ad <;> cases ds <;> simp
  unfold Lower.lowerFunction
  simp only [Yields.bind_iff, requirePositional_iff]
  constructor
  · rintro ⟨_, _, ⟨hps, rfl⟩, h⟩
    refine ⟨hps, ?_⟩
    by_cases hd : ad = true ∨ ds = []
    · rw [if_neg (by rw [hds]; exact not_not.2 hd)] at h
      simp only [Yields.bind_iff, Yields.body_iff] at h
      obtain ⟨_, _, ⟨rfl, rfl⟩, h⟩ := h
      rw [htop] at h
      simp only [Bool.false_eq_true, if_false, Yields.bind_iff, Yields.issue_iff,
        Yields.pure_iff] at h
      obtain ⟨_, _, ⟨rfl, rfl⟩, a, u, hb, n, _, hc, rfl, rfl⟩ := h
      exact ⟨hd, a, u, n, hb, hc, rfl⟩
    · rw [if_pos (hds.2 hd)] at h
      simp at h
  · rintro ⟨hps, hd, a, u, n, hb, hc, rfl⟩
    refine ⟨⟨⟩, s, ⟨hps, rfl⟩, ?_⟩
    rw [if_neg (by rw [hds]; exact not_not.2 hd)]
    simp only [Yields.bind_iff, Yields.body_iff]
    refine ⟨_, s, ⟨rfl, rfl⟩, ?_⟩
    rw [htop]
    simp only [Bool.false_eq_true, if_false, Yields.bind_iff, Yields.issue_iff, Yields.pure_iff]
    exact ⟨_, _, ⟨rfl, rfl⟩, a, u, hb, n, t, hc, rfl, rfl⟩

theorem lowerFunction_acts {f : String} {ps : Params Expr} {ds : List Expr} {ad : Bool}
    {statements : Lower (List Item)} {reads d a : List String} {b : Bool}
    (hcode : Acts reads d a b statements) :
    Acts (reads.filter (!(f :: ps.names).contains ·)) [f] [] false
      (Lower.lowerFunction env loc f ps ds ad statements) := by
  intro s items t hs htop h
  obtain ⟨-, -, a, u, n, hb, hc, -⟩ := (lowerFunction_iff htop).1 h
  have hi := issued_reads hs
  have hu := bindFresh_effect hi.valid hb
  have hres := (Reserved.issue hs (Flat.fresh s.issued f .global_) rfl).advance hu.advances
  obtain ⟨w, l, hw, hl, hres', rfl⟩ := lowerClosure_reads hu.valid hres (functionBody_acts loc hcode) hc
  have e := ((hi.toEffect.trans hs hu).trans hs hw.toEffect).defining (l := l) env
    (hl ▸ hres') (by rw [hl]; exact Nat.lt_succ_self _)
  have hreads : (reads.filter (!(closureNames ps (some f)).contains ·)).filter (! [f].contains ·) =
      reads.filter (!(f :: ps.names).contains ·) := by
    rw [List.filter_filter]
    apply List.filter_congr
    intro x _
    unfold closureNames
    by_cases h₁ : x = f <;> by_cases h₂ : x ∈ ps.names <;> simp [h₁, h₂]
  simpa only [List.filter_nil, List.nil_append, List.append_nil, hreads, Bool.or_self] using e

theorem lowerIf_acts {test : Lower Node} {body orelse : Lower (List Item)}
    {r rT rF dT dF aT aF : List String} {bT bF : Bool} (ht : ∀ {s n t}, Valid s →
      Yields test s n t → Reads r s t)
    (hT : Acts rT dT aT bT body) (hF : Acts rF dF aF bF orelse) :
    Acts (r ++ rT ++ rF) (if bT then [] else aT) (if bT then [] else aT) bT (do
      let test ← test
      let whenTrue ← Lower.lowerBranch "then" body
      let whenFalse ← Lower.lowerBranch "else" orelse
      Lower.mergeBranches env loc test whenTrue whenFalse) := by
  intro s items t hs _ h
  simp only [Yields.bind_iff] at h
  obtain ⟨n, s₁, hn, T, s₂, hT', F, s₃, hF', hm⟩ := h
  have h₁ := ht hs hn
  obtain ⟨h₂, hlT, lT⟩ := lowerBranch_reads h₁.valid hT hT'
  obtain ⟨h₃, hlF, lF⟩ := lowerBranch_reads h₂.valid hF hF'
  have h₀ := (h₁.trans hs h₂).trans hs h₃
  have hle₁ := h₁.advances.issued
  have hle₂ := h₂.advances.issued
  have hleT := lT.reserved.le
  rw [List.append_nil, List.append_nil] at h₀
  exact mergeBranches_effect hs h₀ (lT.advance h₂.valid h₃.advances) lF (by omega) (by omega)
    (by omega) hm

theorem lowerBlock_acts_of {b : List Stmt}
    (ih : ∀ x ∈ b, Acts x.reads x.declares x.assigns x.returns (Lower.lowerStmt env x false)) :
    Acts (blockReads b) (blockDeclares b) (blockAssigns b) (blockReturns b)
      (Lower.lowerBlock env b) := by
  induction b with
  | nil =>
    intro s items t hs _ h
    simp only [Lower.lowerBlock, Yields.pure_iff] at h
    obtain ⟨-, rfl⟩ := h
    exact .nil hs
  | cons x b ihb =>
    intro s items t hs htop h
    simp only [Lower.lowerBlock, Yields.bind_iff, Yields.body_iff] at h
    obtain ⟨_, _, ⟨rfl, rfl⟩, h⟩ := h
    split at h
    · simp at h
    · simp only [Yields.bind_iff, Yields.pure_iff] at h
      obtain ⟨is, u, hx, js, v, hb, -, rfl⟩ := h
      have h₁ := ih x (by simp) hs htop hx
      have htop' := h₁.advances.body.topLevel.trans htop
      exact h₁.trans hs
        (ihb (fun y hy => ih y (List.mem_cons_of_mem _ hy)) h₁.valid htop' hb)

/-- The effect of a statement is the one that its tree tells. -/
theorem lowerStmt_acts (hx : env.expansions = []) (st : Stmt) :
    ∀ ad, Acts st.reads st.declares st.assigns st.returns (Lower.lowerStmt env st ad) := by
  induction st using Stmt.ind with
  | expr sp v =>
    intro ad s items t hs _ h
    simp only [Lower.lowerStmt, Yields.bind_iff, Yields.pure_iff] at h
    obtain ⟨n, u, hv, -, rfl⟩ := h
    exact (lowerExpr_reads hx v hs hv).toEffect
  | assign sp ts v =>
    intro ad s items t hs htop h
    rcases ts with - | ⟨target, - | ⟨_, _⟩⟩
    · simp [Lower.lowerStmt] at h
    · simp only [Lower.lowerStmt] at h
      exact lowerAssign_acts hx sp target v hs htop h
    · simp [Lower.lowerStmt] at h
  | augAssign sp target op v =>
    intro ad s items t hs htop h
    simp only [Lower.lowerStmt] at h
    exact lowerAugAssign_acts hx sp target op v hs htop h
  | functionDef sp f ps b ds ih =>
    intro ad s items t hs htop h
    simp only [Lower.lowerStmt] at h
    exact lowerFunction_acts (lowerBlock_acts_of fun x hx' => ih x hx' false) hs htop h
  | returnValue sp v =>
    intro ad s items t hs htop h
    simp only [Lower.lowerStmt] at h
    exact lowerReturn_acts hx v hs htop h
  | ifElse sp c b o ihb iho =>
    intro ad s items t hs htop h
    simp only [Lower.lowerStmt] at h
    exact lowerIf_acts (fun hs h => lowerExpr_reads hx c hs h)
      (lowerBlock_acts_of fun x hx' => ihb x hx' false)
      (lowerBlock_acts_of fun x hx' => iho x hx' false) hs htop h
  | whileLoop sp c b o ih =>
    intro ad s items t hs htop h
    simp only [Lower.lowerStmt] at h
    split at h
    · simp at h
    · exact lowerLoop_effect (lowerExpr_acts hx c) (lowerBlock_acts_of fun x hx' => ih x hx' false)
        hs htop h
  | foreign st hf =>
    intro ad s items t hs htop h
    cases st <;> simp [Stmt.isForeign] at hf <;> simp [Lower.lowerStmt] at h

theorem lowerBlock_acts (hx : env.expansions = []) (b : List Stmt) :
    Acts (blockReads b) (blockDeclares b) (blockAssigns b) (blockReturns b)
      (Lower.lowerBlock env b) :=
  lowerBlock_acts_of fun x _ => lowerStmt_acts hx x false

end Statements

end Hoist.Lowering
