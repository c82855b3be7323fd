import Hoist.Proofs.Lowering.Bookkeeping
import Hoist.Proofs.Lowering.Entry

/-!
# What trees hold

An expression is lowered to a node that holds what it binds, and statements to items that do. By then all
lambdas on the way have taken over what is theirs, whether the lowering went on to its end or not.
-/

namespace Hoist.Lowering

open Hoist.Flat (Symbol Node Location Space Table Lambda)
open Hoist.Surface (Expr Stmt Operator Params)
open Stock (one many seen ofNode ofNodes)

section Closures

variable {K : Books} {b : Body} {env : Env} {loc : Option Location} {code : Lower Node}
  {statements : Lower (List Item)}

/-- A symbol for a lambda to come, held if it was generated. -/
@[grind] def Stock.forLambda (a : Symbol) : Stock := ⟨if a.isGenerated then [a] else [], [a]⟩

/-- A name that a lambda may have that is no loop. -/
structure Admits (K : Books) (a : Symbol) : Prop where
  relation : a.relation ≠ "loop"
  plain : a.isGenerated = false → K.plain a

theorem Admits.issued {a : Symbol} {name : String} {s t : State}
    (h : Yields (Lower.issue name .global_) s a t) : Admits K a := by
  obtain ⟨rfl, -⟩ := Yields.issue_iff.1 h
  exact ⟨show "" ≠ "loop" by decide, by simp [Flat.fresh, Symbol.isGenerated]⟩

/-- A function inside another one takes over its parameters, those that it pulled before its own. -/
theorem lowerClosure_moves (hc : Holds code ofNode) (params : Params Expr) (name : Option String)
    {ref : Symbol} (hr : Admits K ref) :
    Moves K b (.forLambda ref) (Lower.lowerClosure env params code loc name (some ref)) ofNode := by
  refine (closureBody_moves name ref).seq (.forLambda ref) (by grind) fun _ child _ hchild => ?_
  have hblank := closureBody_blank hchild
  have hinside : Moves K { child with returnError := none } (.forLambda ref) (do
      let formals ← Lower.bindFreshAll (params.positional.map (·.name))
      return (formals, ← code)) fun r => .forLambda ref ++ (many r.1 ++ ofNode r.2) :=
    (bindFreshAll_moves _).andThen fun _ formals _ _ =>
      (hc K { child with returnError := none } hblank.topLevel).andThen fun _ n _ _ => .pure (by grind)
  refine Moves.withinThen hblank.free (hinside.cover (by grind) fun _ => .refl _)
    fun _ r w _ hw => ?_
  have hdest : w.body.dest = ref := hw.dest.trans hblank.dest
  have hpulls := Body.pulls_of_pulling (hw.pulling.trans hblank.pulling)
  have hnamed : (w.body.lambda r.1 r.2 loc).named = if ref.isGenerated then [ref] else [] := by
    rw [← hdest]
    rfl
  refine (lift_moves (hdest ▸ hr.relation) (hdest ▸ hr.plain) env).cover ?_ fun _ => .refl _
  have hbinders : (w.body.lambda r.1 r.2 loc).binders = w.body.pulls ++ (r.1 ++ r.2.lets) := by
    simp [Flat.Lambda.binders, Body.lambda, hpulls]
  have href : (w.body.lambda r.1 r.2 loc).ref = ref := hdest
  have hcode : (w.body.lambda r.1 r.2 loc).body = r.2 := rfl
  simp only [Stock.ofLambda, hnamed, hbinders, href, hcode]
  clear hnamed hbinders href hcode hpulls hdest hinside
  grind

theorem lowerClosure_none_moves (hc : Holds code ofNode) (params : Params Expr)
    (name : Option String) :
    Moves K b ∅ (Lower.lowerClosure env params code loc name none) ofNode := by
  have hassoc : Lower.lowerClosure env params code loc name none = (do
      let ref ← Lower.issue (name.getD "lambda") .global_
      Lower.lowerClosure env params code loc name (some ref)) := by
    simp only [Lower.lowerClosure, closureBody_none, bind_assoc]
  rw [hassoc]
  refine (issue_moves _ _).bind fun _ ref _ href => ?_
  exact (lowerClosure_moves hc params name (.issued href)).cover (by grind) fun _ => .refl _

end Closures

section Expressions

variable {K : Books} {b : Body} {p : Stock} {env : Env} {loc : Option Location}

theorem requirePositional_moves (params : Params Expr) (loc : Option Location) :
    Moves K b p (Lower.requirePositional params loc) fun _ => p := by
  unfold Lower.requirePositional
  simp only []
  exact .ite (fun _ => .refuse _ _) fun _ => .ite (fun _ => .refuse _ _) fun _ =>
    .ite (fun _ => .refuse _ _) fun _ => .pure (.refl _)

theorem refuseStarred_moves (env : Env) (es : List Expr) :
    Moves K b p (Lower.refuseStarred env es) fun _ => p := by
  induction es with
  | nil => exact .pure (.refl _)
  | cons e es ih =>
    unfold Lower.refuseStarred
    split
    · exact .pure (.refl _)
    · exact .refuse _ _
    · rename_i heq
      cases heq
      exact ih

theorem operatorNode_moves (op : Operator) (loc : Option Location) :
    Moves K b ∅ (Lower.operatorNode op loc) ofNode := by
  unfold Lower.operatorNode
  split
  · exact .pure (by grind [Symbol.builtin])
  · exact .throw _

theorem lowerExprs_holds {es : List Expr} (h : ∀ e ∈ es, Holds (Lower.lowerExpr env e) ofNode) :
    Holds (Lower.lowerExprs env es) ofNodes := by
  intro K b hb
  induction es with
  | nil => exact .pure (by grind)
  | cons e es ih =>
    rw [Lower.lowerExprs]
    refine (h e (by simp) K b hb).bind fun _ n _ _ => ?_
    exact (ih fun e' he' => h e' (List.mem_cons_of_mem _ he')).andThen fun _ ns _ _ => .pure (by grind)

theorem lowerOption_holds {o : Option Expr} (v : Literal)
    (h : ∀ e ∈ o, Holds (Lower.lowerExpr env e) ofNode) :
    Holds (Lower.lowerOption env o v) ofNode := by
  intro K b hb
  cases o with
  | none => exact .pure (by grind)
  | some e => exact h e rfl K b hb

/-- The node of an expression is all that is in hand of it. -/
theorem lowerExpr_holds (hx : env.expansions = []) (e : Expr) : Holds (Lower.lowerExpr env e) ofNode := by
  induction e using Expr.ind with
  | name sp x =>
    rw [Lower.lowerExpr]
    exact fun _ _ _ => readName_moves x _
  | constant sp v =>
    rw [Lower.lowerExpr]
    exact fun _ _ _ => .pure (by grind)
  | binary sp op l r ihl ihr =>
    rw [Lower.lowerExpr]
    intro K b hb
    refine (operatorNode_moves op _).bind fun _ f _ _ => ?_
    refine (ihl K b hb).andThen fun _ l _ _ => (ihr K b hb).andThen fun _ r _ _ => ?_
    exact .pure (by grind)
  | unary sp op x ih =>
    rw [Lower.lowerExpr]
    intro K b hb
    refine (operatorNode_moves op _).bind fun _ f _ _ => ?_
    exact (ih K b hb).andThen fun _ x _ _ => .pure (by grind)
  | compare sp l op r ihl ihr =>
    rw [Lower.lowerExpr]
    intro K b hb
    refine (operatorNode_moves op _).bind fun _ f _ _ => ?_
    refine (ihl K b hb).andThen fun _ l _ _ => (ihr K b hb).andThen fun _ r _ _ => ?_
    exact .pure (by grind)
  | chain sp l rest hlen =>
    rcases rest with - | ⟨⟨op, r⟩, - | ⟨_, _⟩⟩
    · simp only [Lower.lowerExpr]
      exact fun _ _ _ => .refuse _ _
    · simp at hlen
    · simp only [Lower.lowerExpr]
      exact fun _ _ _ => .refuse _ _
  | call sp f args ks ihf ihargs =>
    have hargs := lowerExprs_holds ihargs
    simp only [Lower.lowerExpr, expansionOf?_eq_none hx]
    intro K b hb
    refine .ite (fun _ => .refuse _ _) fun _ => ?_
    refine (refuseStarred_moves env args).bind fun _ _ _ _ => ?_
    refine (hargs K b hb).bind fun _ ns _ _ => (ihf K b hb).andThen fun _ n _ _ => ?_
    exact .pure (by grind)
  | attr sp v name ih =>
    rw [Lower.lowerExpr]
    intro K b hb
    exact (ih K b hb).bind fun _ n _ _ => .pure (by grind [Flat.getattr, Symbol.builtin])
  | subscript sp v i ihv ihi =>
    rw [Lower.lowerExpr]
    intro K b hb
    refine (ihv K b hb).bind fun _ n _ _ => (ihi K b hb).andThen fun _ m _ _ => ?_
    exact .pure (by grind [Flat.index, Symbol.builtin])
  | slice sp x y z ihx ihy ihz =>
    rw [lowerExpr_slice]
    intro K b hb
    refine (lowerOption_holds _ ihx K b hb).bind fun _ x _ _ => ?_
    refine (lowerOption_holds _ ihy K b hb).andThen fun _ y _ _ => ?_
    refine (lowerOption_holds _ ihz K b hb).andThen fun _ z _ _ => ?_
    exact .pure (by grind [Flat.slice, Symbol.builtin])
  | extSlice sp es ih =>
    rw [Lower.lowerExpr]
    exact fun K b hb => (lowerExprs_holds ih K b hb).bind fun _ ns _ _ => .pure (by grind)
  | tuple sp es ih =>
    rw [Lower.lowerExpr]
    exact fun K b hb => (lowerExprs_holds ih K b hb).bind fun _ ns _ _ => .pure (by grind)
  | lambda sp ps body ih =>
    rw [Lower.lowerExpr]
    intro K b hb
    exact (requirePositional_moves ps _).bind fun _ _ _ _ => lowerClosure_none_moves ih ps none
  | foreign e hf =>
    cases e <;> simp [Expr.isForeign] at hf <;> rw [Lower.lowerExpr] <;>
      exact fun _ _ _ => .refuse _ _

end Expressions

section Statements

variable {K : Books} {b : Body} {env : Env} {loc : Option Location}
  {statements : Lower (List Item)}

theorem lowerAssign_holds (hx : env.expansions = []) (loc : Option Location) (target value : Expr) :
    Holds (Lower.lowerAssign env loc target value) Stock.ofItems := by
  have he := lowerExpr_holds hx
  intro K b hb
  unfold Lower.lowerAssign
  split
  · refine (he value K b hb).bind fun _ v _ _ => ?_
    exact (assign_moves _ v loc).bind fun _ i _ _ => .pure (by grind)
  · split
    · refine (he value K b hb).bind fun _ v _ _ => ?_
      refine (he _ K b hb).andThen fun _ o _ _ => (he _ K b hb).andThen fun _ i _ _ => ?_
      refine ((assign_moves _ _ loc).cover ?_ fun _ => .refl _).bind fun _ i _ _ => .pure (by grind)
      grind [Flat.setslice, Symbol.builtin]
    · exact .refuse _ _
  · exact .refuse _ _
  · exact .refuse _ _
  · exact .refuse _ _

theorem lowerAugAssign_holds (hx : env.expansions = []) (loc : Option Location) (target : Expr)
    (op : Operator) (value : Expr) :
    Holds (Lower.lowerAugAssign env loc target op value) Stock.ofItems := by
  intro K b hb
  unfold Lower.lowerAugAssign
  split
  · refine (lowerExpr_holds hx value K b hb).bind fun _ v _ _ => ?_
    refine (operatorNode_moves op loc).andThen fun _ f _ _ => ?_
    refine (readName_moves _ loc).andThen fun _ n _ _ => ?_
    refine (current_moves _ loc).andThen fun _ a _ _ => ?_
    exact ((assign_moves _ _ loc).cover (by grind) fun _ => .refl _).bind fun _ i _ _ =>
      .pure (by grind)
  · exact .refuse _ _
  · exact .refuse _ _

theorem returning_moves {code : Lower (List Item)} (h : Moves K b ∅ code Stock.ofItems) :
    Moves K b ∅ (do Lower.modifyBody fun b => { b with hasReturned := true }
                    code) Stock.ofItems :=
  Moves.bind (.modifyBody (fun _ => ⟨rfl, rfl, rfl, rfl, rfl⟩) fun _ => rfl) fun _ _ _ _ => h

theorem lowerReturn_holds (hx : env.expansions = []) (loc : Option Location) (value : Option Expr) :
    Holds (Lower.lowerReturn env loc value) Stock.ofItems := by
  intro K b hb
  have hrefuse {why code} (h : Moves K b ∅ code Stock.ofItems) :
      Moves K b ∅ (do Lower.refuse (α := PUnit) (.forbiddenReturn why) loc; code) Stock.ofItems :=
    Moves.bind (.refuse (q := fun _ => ∅) _ _) fun _ _ _ _ => h
  cases value with
  | none =>
    have hcode := returning_moves (K := K) (b := b)
      (.pure (a := [Item.plain (.value loc .none)]) (by grind))
    refine Moves.withBody fun c _ => ?_
    cases c.returnError with
    | some why => exact hrefuse hcode
    | none => exact hcode
  | some e =>
    have hcode := returning_moves (K := K) (b := b)
      ((lowerExpr_holds hx e K b hb).bind fun _ n _ _ => .pure (a := [Item.plain n]) (by grind))
    refine Moves.withBody fun c _ => ?_
    cases c.returnError with
    | some why => exact hrefuse hcode
    | none => exact hcode

theorem functionBody_holds (hst : Holds statements Stock.ofItems) (loc : Option Location) :
    Holds (Lower.functionBody statements loc) ofNode := fun K b hb =>
  (hst K b hb).bind fun _ items _ _ => .ofExcept fun n hn =>
    .trans (by grind) (group_covers hn)

/-- The lambda of a function takes over what is its own. At top level the books have to admit its plain
name. -/
theorem lowerFunction_moves (hst : Holds statements Stock.ofItems) (name : String)
    (params : Params Expr) (decorators : List Expr) (allow : Bool)
    (hplain : b.topLevel = true → K.plain (.global name)) :
    Moves K b ∅ (Lower.lowerFunction env loc name params decorators allow statements)
      Stock.ofItems := by
  have hdefine : ∀ ref, Admits K ref → Moves K b (.forLambda ref) (do
      let sym ← Lower.bindFresh name
      let closure ← Lower.lowerClosure env params (Lower.functionBody statements loc) loc (some name)
        (some ref)
      return [Item.assign ⟨sym, closure, loc⟩]) Stock.ofItems := by
    intro ref href
    refine (bindFresh_moves name).andThen fun _ sym _ _ => ?_
    refine (lowerClosure_moves (functionBody_holds hst loc) params (some name) href).seq (one sym)
      (by grind) fun _ n _ _ => ?_
    exact .pure (by grind)
  refine (requirePositional_moves params loc).bind fun _ _ _ _ => ?_
  refine .ite (fun _ => .refuse _ _) fun _ => Moves.withBody fun c hc => ?_
  have htop := hc.topLevel
  cases hct : c.topLevel with
  | true =>
    refine Moves.bind (q := Stock.forLambda) (.pure (by grind [Symbol.global, Symbol.isGenerated]))
      fun _ ref _ href => hdefine ref ?_
    obtain ⟨rfl, -⟩ := Yields.pure_iff.1 href
    exact ⟨show "" ≠ "loop" by decide, fun _ => hplain (htop ▸ hct)⟩
  | false =>
    refine ((issue_moves name .global_).cover (.refl _) fun a => ?_).bind fun _ ref _ href =>
      hdefine ref (.issued href)
    grind

theorem lowerBlock_holds_of {ss : List Stmt}
    (h : ∀ st ∈ ss, Holds (Lower.lowerStmt env st false) Stock.ofItems) :
    Holds (Lower.lowerBlock env ss) Stock.ofItems := by
  intro K b hb
  induction ss with
  | nil =>
    rw [Lower.lowerBlock]
    exact .pure (by grind)
  | cons st ss ih =>
    rw [Lower.lowerBlock]
    refine Moves.withBody fun _ _ => .ite (fun _ => .refuse _ _) fun _ => ?_
    refine (h st (by simp) K b hb).bind fun _ items _ _ => ?_
    refine (ih fun st' hst' => h st' (List.mem_cons_of_mem _ hst')).andThen fun _ rest _ _ => ?_
    exact .pure (by grind)

/-- The items of a statement are all that is in hand of it. -/
theorem lowerStmt_holds (hx : env.expansions = []) (st : Stmt) :
    ∀ allow, Holds (Lower.lowerStmt env st allow) Stock.ofItems := by
  induction st using Stmt.ind with
  | expr sp v =>
    intro allow K b hb
    rw [Lower.lowerStmt]
    exact (lowerExpr_holds hx v K b hb).bind fun _ n _ _ => .pure (by grind)
  | assign sp ts v =>
    intro allow
    rcases ts with - | ⟨target, - | ⟨_, _⟩⟩
    · simp only [Lower.lowerStmt]
      exact fun _ _ _ => .refuse _ _
    · simp only [Lower.lowerStmt]
      exact lowerAssign_holds hx _ target v
    · simp only [Lower.lowerStmt]
      exact fun _ _ _ => .refuse _ _
  | augAssign sp target op v =>
    intro allow
    rw [Lower.lowerStmt]
    exact lowerAugAssign_holds hx _ target op v
  | functionDef sp f ps body ds ih =>
    intro allow K b hb
    rw [Lower.lowerStmt]
    exact lowerFunction_moves (lowerBlock_holds_of fun st hst => ih st hst false) f ps ds allow
      (by simp [hb])
  | returnValue sp v =>
    intro allow
    rw [Lower.lowerStmt]
    exact lowerReturn_holds hx _ v
  | ifElse sp c body orelse ihb iho =>
    intro allow K b hb
    have hbody := lowerBlock_holds_of fun st hst => ihb st hst false
    have horelse := lowerBlock_holds_of fun st hst => iho st hst false
    rw [Lower.lowerStmt]
    refine (lowerExpr_holds hx c K b hb).bind fun _ test _ _ => ?_
    refine (lowerBranch_moves hbody "then").andThen fun _ T _ hT => ?_
    refine (lowerBranch_moves horelse "else").andThen fun _ F _ hF => ?_
    refine (mergeBranches_moves ?_ ?_ test).cover (by grind) fun _ => .refl _
    · rw [lowerBranch_relation (lowerBlock_tame env body) hT]
      decide
    · rw [lowerBranch_relation (lowerBlock_tame env orelse) hF]
      decide
  | whileLoop sp c body orelse ih =>
    intro allow K b hb
    simp only [Lower.lowerStmt]
    exact .ite (fun _ => .refuse _ _) fun _ =>
      lowerLoop_moves (lowerExpr_holds hx c) (lowerBlock_holds_of fun st hst => ih st hst false)
  | foreign st hf =>
    intro allow
    cases st <;> simp [Stmt.isForeign] at hf <;> rw [Lower.lowerStmt] <;>
      exact fun _ _ _ => .refuse _ _

theorem lowerBlock_holds (hx : env.expansions = []) (ss : List Stmt) :
    Holds (Lower.lowerBlock env ss) Stock.ofItems :=
  lowerBlock_holds_of fun st _ => lowerStmt_holds hx st false

end Statements

section Units

open Hoist.Surface (Module)
open Hoist.Flat (Source)

variable {K : Books} {b : Body} {env : Env} {m : Module} {opts : Options} {log : String}

/-- The name of the function that a module holds, if it holds just one. -/
def entryName? (m : Module) : Option String :=
  match m.body with
  | [.functionDef _ name _ _ _] => some name
  | _ => none

theorem lowerEntry_moves (hx : env.expansions = [])
    (hplain : ∀ f ∈ entryName? m, K.plain (.global f)) :
    Moves K b ∅ (Lower.lowerEntry env m) fun _ => ∅ := by
  unfold Lower.lowerEntry
  split
  · rename_i st hm
    split
    · rename_i sp f ps body ds
      have hf : f ∈ entryName? m := by simp [entryName?, hm]
      rw [Lower.lowerStmt]
      exact (lowerFunction_moves (lowerBlock_holds hx body) f ps ds true fun _ => hplain f hf).bind
        fun _ _ _ _ => .pure (by grind)
    · exact .refuse _ _
  · exact .refuse _ _

/-- The books of a unit. -/
def Options.books (opts : Options) (m : Module) : Books where
  issued := opts.issued
  lambdas := opts.table.lambdas
  plain a := ∃ f ∈ entryName? m, a = .global f

theorem rootState_ledger (opts : Options) (m : Module) (log : String) :
    Ledger (opts.books m) (rootState opts log).body (rootState opts log) ∅ where
  kept :=
    { issued := Nat.le_succ _
      lambdas := ⟨[], [], by simp [rootState, Options.books], .nil, fun k => Nat.zero_le _, by simp⟩
      unlike := id }
  used := by simp
  binds i x a ha := by
    rw [rootState_own] at ha
    cases ha
  names := List.nodup_nil
  body := .refl _

/-- However a module is lowered, the books are kept in the state that its outcome tells of. -/
theorem lowerModule_kept (hx : opts.expansions = []) (m : Module) (source : Source) (log : String) :
    ∃ t, Kept (opts.books m) t [] ∧ (lowerModule m source opts log).issued = t.issued ∧
      (lowerModule m source opts log).table = t.table := by
  have hmoves : Moves (opts.books m) (rootState opts log).body ∅
      (Lower.lowerEntry ⟨source, opts.expansions, opts.verbose⟩ m) fun _ => ∅ :=
    lowerEntry_moves hx fun f hf => ⟨f, hf, rfl⟩
  have hends := hmoves _ ∅ ((rootState_ledger opts m log).cover (by grind))
  obtain ⟨entry, t, hr, hm⟩ | ⟨e, t, hr, hm⟩ := lowerModule_cases m source opts log
  · rw [hm]
    exact ⟨t, (hends.of_yields hr).kept.close, rfl, rfl⟩
  · rw [hm]
    exact ⟨t, hends.of_error hr, rfl, rfl⟩

/-- However a text is lowered, the lambdas that it adds to the table take their symbols from those that
it issued, each of them one symbol for itself. Only the function of a text that can be read may be known
by a name without a number. -/
structure Contributes (opts : Options) (out : Outcome) (plain : Symbol → Prop) (L : List Lambda)
    (S : List Symbol) : Prop where
  issued : opts.issued ≤ out.issued
  lambdas : out.table.lambdas = opts.table.lambdas ++ L
  owns : Flat.Owns L S
  symbols : Flat.Issued opts.issued out.issued S
  refers : ∀ l ∈ L, ∀ a ∈ l.body.refers, a.token ≤ out.issued
  plain : ∀ l ∈ L, l.ref.isGenerated = false → plain l.ref
  unlike : Unlike opts.table.lambdas → Unlike out.table.lambdas

theorem lowerSource_contributes (opts : Options) (hx : opts.expansions = []) (source : Source) :
    ∃ L S, Contributes opts (lowerSource source opts) (fun a => ∃ m f, Surface.readModule source.text = .ok m ∧
      f ∈ entryName? m ∧ a = .global f) L S := by
  unfold lowerSource
  cases hm : Surface.readModule source.text with
  | error fault =>
    exact ⟨[], [], Nat.le_refl _, (List.append_nil _).symm, .nil, .nil, by simp, by simp, id⟩
  | ok m =>
    obtain ⟨t, ht, hi, htab⟩ := lowerModule_kept hx m source
      (if opts.verbose then announcement source else "")
    obtain ⟨L, S, hL, hS, his, hr⟩ := ht.lambdas
    refine ⟨L, S, hi ▸ ht.issued, by rw [htab, hL]; rfl, hS, ?_, fun l hl => hi ▸ (hr l hl).refers,
      fun l hl hg => ?_, htab ▸ ht.unlike⟩
    · rw [hi, ← List.append_nil S]
      exact his
    · obtain ⟨f, hf, hl⟩ := (hr l hl).plain hg
      exact ⟨m, f, rfl, hf, hl⟩

end Units

end Hoist.Lowering
