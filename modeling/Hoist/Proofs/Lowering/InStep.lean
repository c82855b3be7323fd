import Hoist.Proofs.Lowering.Aftermath
import Hoist.Proofs.Lowering.Shifted

/-!
# Runs in step

Two runs of lowering are in step when the second one has issued `k` more symbols, all along: what one
does with a symbol, the other one does with the shifted symbol. There is one rule for each operation of
lowering, and the rule for sequences hands the shifted result on, so both runs of a tree are gone
through side by side. They stop together, for one reason: only the text of a symbol that was defined
twice could tell them apart.
-/

namespace Hoist.Lowering

open Hoist.Flat (Symbol Node Location Space Table Lambda)
open Hoist.Surface (Expr Stmt Operator Params)

/-- A state with `k` more symbols issued. What was logged may differ, for the log writes tokens. -/
structure Later (k : Nat) (s s' : State) : Prop where
  issued : s'.issued = s.issued + k
  scopes : s'.scopes = s.scopes.shift k
  table : s'.table = s.table.shift k
  commits : s'.commits = s.commits
  body : s'.body = s.body.shift k

/-- Failures that are the same, or that both write a symbol. -/
inductive Failure.Like : Failure → Failure → Prop
  | refl (e : Failure) : Like e e
  | redefinition (name name' : String) : Like (.redefinition name) (.redefinition name')

/-- Ends of two runs in step. -/
inductive Together {α : Type} (k : Nat) (g : α → α) :
    EStateM.Result Failure State α → EStateM.Result Failure State α → Prop
  | ok {a : α} {t t' : State} (h : Later k t t') : Together k g (.ok a t) (.ok (g a) t')
  | error {e e' : Failure} {t t' : State} (he : e.Like e') (h : Later k t t') :
      Together k g (.error e t) (.error e' t')

/-- Steps that are taken in step; `g` shifts their results. -/
def InStep {α : Type} (k : Nat) (g : α → α) (x x' : Lower α) : Prop :=
  ∀ ⦃s s'⦄, Later k s s' → Together k g (x s) (x' s')

variable {k : Nat}

namespace InStep

variable {α β : Type} {g : α → α} {h : β → β} {x x' y y' : Lower α} {f f' : α → Lower β}

theorem pure {a b : α} (hb : b = g a) : InStep k g (Pure.pure a) (Pure.pure b) := fun _ _ hs => by
  subst hb
  exact .ok hs

theorem throw {e e' : Failure} (he : e.Like e') :
    InStep k g (MonadExcept.throw e) (MonadExcept.throw e') := fun _ _ hs => .error he hs

theorem refuse (c : Cause) (l : Option Location) : InStep k g (Lower.refuse c l) (Lower.refuse c l) :=
  throw (.refl _)

/-- What comes behind a refusal is never reached. -/
theorem refused (c : Cause) (l : Option Location) :
    InStep k h (Lower.refuse c l >>= f) (Lower.refuse c l >>= f') := fun _ _ hs => .error (.refl _) hs

theorem ofExcept {z z' : Except Failure α} (hz : z' = z.map g) :
    InStep k g (Lower.ofExcept z) (Lower.ofExcept z') := by
  subst hz
  cases z with
  | ok a => exact pure rfl
  | error e => exact throw (.refl e)

theorem bind (hx : InStep k g x x') (hf : ∀ a, InStep k h (f a) (f' (g a))) :
    InStep k h (x >>= f) (x' >>= f') := fun s s' hs => by
  have hboth := hx hs
  change Together k h (EStateM.bind x f s) (EStateM.bind x' f' s')
  unfold EStateM.bind
  generalize x s = r at hboth ⊢
  generalize x' s' = r' at hboth ⊢
  cases hboth with
  | ok ht => exact hf _ ht
  | error he ht => exact .error he ht

theorem ite {c : Prop} [Decidable c] (hx : InStep k g x x') (hy : InStep k g y y') :
    InStep k g (if c then x else y) (if c then x' else y') := by
  split
  · exact hx
  · exact hy

/-- Steps that look at the whole state. -/
theorem withState {f f' : State → Lower β}
    (hf : ∀ s s', Later k s s' → Together k h (f s s) (f' s' s')) :
    InStep k h (get >>= f) (get >>= f') := hf

theorem body : InStep k (Body.shift k) Lower.body Lower.body := withState fun s s' hs => by
  rw [hs.body]
  exact .ok hs

theorem modifyBody {f f' : Body → Body} (hf : ∀ b, f' (b.shift k) = (f b).shift k) :
    InStep k id (Lower.modifyBody f) (Lower.modifyBody f') := fun s s' hs =>
  .ok { hs with body := by rw [← hf, ← hs.body] }

theorem mapM {ι : Type} {step step' : ι → Lower α} (hstep : ∀ i, InStep k g (step i) (step' i))
    (is : List ι) : InStep k (List.map g) (is.mapM step) (is.mapM step') := by
  induction is with
  | nil => exact pure rfl
  | cons i is ih =>
    rw [List.mapM_cons, List.mapM_cons]
    exact (hstep i).bind fun _ => ih.bind fun _ => pure rfl

end InStep

section Names

variable {loc : Option Location}

theorem issue_inStep (name : String) (space : Space) :
    InStep k (Symbol.shift k) (Lower.issue name space) (Lower.issue name space) :=
  .withState fun s s' hs => by
    rw [hs.issued, Flat.fresh_shift]
    exact .ok { hs with issued := Nat.add_right_comm _ _ _ }

theorem derive_inStep (parent : Symbol) (tag : String) :
    InStep k (Symbol.shift k) (Lower.derive parent tag) (Lower.derive (parent.shift k) tag) :=
  .withState fun s s' hs => by
    rw [hs.issued, Flat.derived_shift]
    exact .ok { hs with issued := Nat.add_right_comm _ _ _ }

theorem bind_inStep (frame : Nat) (name : String) (a : Symbol) :
    InStep k id (Lower.bind frame name a) (Lower.bind frame name (a.shift k)) :=
  .withState fun s s' hs => by
    rw [hs.scopes, Scopes.shift_bind]
    cases s.scopes.bind frame name a with
    | error e => exact .error (.refl e) hs
    | ok scopes => exact .ok { hs with scopes := rfl }

theorem bindFresh_inStep (name : String) :
    InStep k (Symbol.shift k) (Lower.bindFresh name) (Lower.bindFresh name) :=
  (issue_inStep name .local_).bind fun a => InStep.body.bind fun b =>
    (bind_inStep b.frame name a).bind fun _ => .pure rfl

theorem noteFree_inStep (name : String) (a : Symbol) :
    InStep k id (Lower.noteFree name a) (Lower.noteFree name (a.shift k)) := by
  refine .modifyBody fun b => ?_
  have hany : (b.shift k).free.any (·.1 == name) = b.free.any (·.1 == name) := by
    simp [Body.shift, List.any_map, Function.comp_def]
  rw [hany]
  cases b.free.any (·.1 == name) with
  | false => simp [Body.shift]
  | true =>
    simp only [Body.shift, if_true, List.map_map, Body.mk.injEq, true_and, and_true]
    refine List.map_congr_left fun p _ => ?_
    by_cases hp : p.1 = name <;> simp [hp]

theorem find_inStep (name : String) :
    InStep k (Option.map (Resolution.shift k)) (Lower.find name) (Lower.find name) :=
  .withState fun s s' hs => by
    rw [hs.scopes, hs.body]
    exact InStep.ofExcept (Scopes.shift_find _ _ _) hs

theorem readName_inStep (name : String) (loc : Option Location) :
    InStep k (Node.shift k) (Lower.readName name loc) (Lower.readName name loc) := by
  refine (find_inStep name).bind fun r => ?_
  rcases r with - | ⟨- | -, a⟩
  · exact .pure (by simp [Node.shift])
  · exact .pure rfl
  · refine InStep.body.bind fun b => ?_
    have hpulling : (b.shift k).pulling = b.pulling := rfl
    rw [hpulling]
    cases b.pulling with
    | true => exact (bindFresh_inStep name).bind fun a => (noteFree_inStep name a).bind fun _ => .pure rfl
    | false =>
      exact InStep.bind (g := Symbol.shift k) (.pure rfl) fun a =>
        (noteFree_inStep name a).bind fun _ => .pure rfl

theorem currentIn_inStep (frame : Nat) (name : String) (loc : Option Location) :
    InStep k (Symbol.shift k) (Lower.currentIn frame name loc) (Lower.currentIn frame name loc) :=
  .withState fun s s' hs => by
    rw [hs.scopes]
    have hstep : InStep k (Symbol.shift k)
        (do return (← Lower.ofExcept (s.scopes.lookup frame name loc)).sym)
        (do return (← Lower.ofExcept ((s.scopes.shift k).lookup frame name loc)).sym) :=
      (InStep.ofExcept (Scopes.shift_lookup _ _ _ _)).bind fun _ => .pure rfl
    exact hstep hs

theorem current_inStep (name : String) (loc : Option Location) :
    InStep k (Symbol.shift k) (Lower.current name loc) (Lower.current name loc) :=
  InStep.body.bind fun b => currentIn_inStep b.frame name loc

theorem assign_inStep (name : String) (value : Node) (loc : Option Location) :
    InStep k (Item.shift k) (Lower.assign name value loc) (Lower.assign name (value.shift k) loc) :=
  (bindFresh_inStep name).bind fun a => (InStep.modifyBody fun b => by
    change (if b.assigned.contains name then _ else _) = _
    cases b.assigned.contains name <;> rfl).bind fun _ => .pure rfl

theorem markReturned_inStep : InStep k id (Lower.modifyBody fun b => { b with hasReturned := true })
    (Lower.modifyBody fun b => { b with hasReturned := true }) :=
  .modifyBody fun _ => rfl

theorem projection_shift (tuple : Symbol) (i : Nat) (loc : Option Location) :
    Lower.projection (tuple.shift k) i loc = (Lower.projection tuple i loc).shift k := by
  simp [Lower.projection, Node.shift, Flat.index]

theorem assignItems_inStep (tuple : Symbol) (loc : Option Location) (i : Nat) (names : List String) :
    InStep k (List.map (Item.shift k)) (Lower.assignItems tuple loc i names)
      (Lower.assignItems (tuple.shift k) loc i names) := by
  induction names generalizing i with
  | nil => exact .pure rfl
  | cons x names ih =>
    rw [Lower.assignItems, Lower.assignItems, projection_shift]
    exact (assign_inStep x _ loc).bind fun _ => (ih (i + 1)).bind fun _ => .pure rfl

theorem assignAll_inStep (names : List String) (value : Node) (loc : Option Location) :
    InStep k (List.map (Item.shift k)) (Lower.assignAll names value loc)
      (Lower.assignAll names (value.shift k) loc) :=
  (issue_inStep "tmp" .local_).bind fun tuple => (assignItems_inStep tuple loc 0 names).bind fun _ =>
    .pure rfl

theorem readNames_inStep (loc : Option Location) (names : List String) :
    InStep k (List.map (Node.shift k)) (Lower.readNames loc names) (Lower.readNames loc names) := by
  induction names with
  | nil => exact .pure rfl
  | cons x names ih => exact (readName_inStep x loc).bind fun _ => ih.bind fun _ => .pure rfl

theorem currents_inStep (loc : Option Location) (names : List String) :
    InStep k (List.map (Node.shift k)) (Lower.currents loc names) (Lower.currents loc names) := by
  induction names with
  | nil => exact .pure rfl
  | cons x names ih => exact (current_inStep x loc).bind fun _ => ih.bind fun _ => .pure rfl

theorem bindFreshAll_inStep (names : List String) :
    InStep k (List.map (Symbol.shift k)) (Lower.bindFreshAll names) (Lower.bindFreshAll names) := by
  induction names with
  | nil => exact .pure rfl
  | cons x names ih => exact (bindFresh_inStep x).bind fun _ => ih.bind fun _ => .pure rfl

end Names

section Lambdas

variable {α : Type} {g : α → α} {env : Env} {loc : Option Location}

/-- What is logged does not matter. -/
theorem logDefinition_inStep (env : Env) (what what' : String) (a a' : Symbol) :
    InStep k id (Lower.logDefinition env what a) (Lower.logDefinition env what' a') := by
  unfold Lower.logDefinition
  refine .ite ?_ (.pure rfl)
  exact fun s s' hs => .ok { hs with }

theorem define_inStep (env : Env) (ref : Symbol) (params : List Symbol) (code : Node)
    (loc : Option Location) :
    InStep k id (Lower.define env ref params code loc)
      (Lower.define env (ref.shift k) (params.map (·.shift k)) (code.shift k) loc) :=
  .withState fun s s' hs => by
    have hdefine := Flat.Table.define?_shift (k := k) s.table ⟨ref, params, code, loc⟩
    rw [Flat.Lambda.shift] at hdefine
    rw [hs.table, hdefine]
    cases s.table.define? ⟨ref, params, code, loc⟩ with
    | none => exact .error (.redefinition _ _) hs
    | some table =>
      have hset : Later k { s with table := table } { s' with table := table.shift k } :=
        { hs with table := rfl }
      exact logDefinition_inStep env _ _ ref (ref.shift k) hset

theorem within_inStep {step step' : Lower α} (h : InStep k g step step') (inner : Body) :
    InStep k (fun p => (g p.1, p.2.shift k)) (Lower.within inner step)
      (Lower.within (inner.shift k) step') := fun s s' hs => by
  have hboth : Together k g (step { s with body := inner }) (step' { s' with body := inner.shift k }) :=
    h { hs with body := rfl }
  unfold Lower.within
  generalize step { s with body := inner } = r at hboth ⊢
  generalize step' { s' with body := inner.shift k } = r' at hboth ⊢
  cases hboth with
  | ok ht =>
    dsimp only
    rw [ht.body]
    exact .ok { ht with body := hs.body }
  | error he ht => exact .error he { ht with body := hs.body }

theorem inScratch_inStep {step step' : Lower α} (h : InStep k g step step') :
    InStep k g (Lower.inScratch step) (Lower.inScratch step') := fun s s' hs => by
  have hboth : Together k g (step { s with table := .empty, commits := false })
      (step' { s' with table := .empty, commits := false }) := h { hs with table := rfl, commits := rfl }
  unfold Lower.inScratch
  generalize step { s with table := .empty, commits := false } = r at hboth ⊢
  generalize step' { s' with table := .empty, commits := false } = r' at hboth ⊢
  cases hboth with
  | ok ht => exact .ok { ht with table := hs.table, commits := hs.commits }
  | error he ht => exact .error he { ht with table := hs.table, commits := hs.commits }

theorem newBody_inStep (frame : Nat) (dest : Option Symbol) (pulling topLevel : Bool)
    (err : Option String) :
    InStep k (Body.shift k) (Lower.newBody frame dest pulling topLevel err)
      (Lower.newBody frame (dest.map (·.shift k)) pulling topLevel err) := by
  cases dest with
  | some d => exact InStep.bind (g := Symbol.shift k) (.pure rfl) fun _ => .pure rfl
  | none => exact (issue_inStep "lambda" .global_).bind fun _ => .pure rfl

theorem childBody_inStep (dest : Option Symbol) (pulling : Bool) (err : Option String) :
    InStep k (Body.shift k) (Lower.childBody dest pulling err)
      (Lower.childBody (dest.map (·.shift k)) pulling err) :=
  .withState fun s s' hs => by
    have hchild := Scopes.shift_child (k := k) s.scopes s.body.frame
    have hframe : s'.body.frame = s.body.frame := by rw [hs.body]; rfl
    rw [hs.scopes, hframe, hchild]
    cases s.scopes.child s.body.frame with
    | error e => exact .error (.refl e) hs
    | ok p =>
      have hset : Later k { s with scopes := p.2 } { s' with scopes := p.2.shift k } :=
        { hs with scopes := rfl }
      exact newBody_inStep p.1 dest pulling false err hset

theorem closureBody_inStep (name : Option String) (ref : Option Symbol) :
    InStep k (Body.shift k) (Lower.closureBody name ref)
      (Lower.closureBody name (ref.map (·.shift k))) := by
  have hsome : ∀ ref : Symbol, InStep k (Body.shift k) (Lower.closureBody name (some ref))
      (Lower.closureBody name (some (ref.shift k))) := fun ref => by
    rw [closureBody_some, closureBody_some]
    refine InStep.body.bind fun b => (childBody_inStep (some ref) true b.returnError).bind fun child => ?_
    refine InStep.bind (g := id) ?_ fun _ => .pure rfl
    cases name with
    | none => exact .pure rfl
    | some n => exact bind_inStep child.frame n ref
  cases ref with
  | some ref => exact hsome ref
  | none =>
    rw [Option.map_none, closureBody_none]
    exact (issue_inStep _ _).bind hsome

theorem lift_inStep (env : Env) (child : Body) (formals : List Symbol) (code : Node)
    (loc : Option Location) :
    InStep k (Node.shift k) (Lower.lift env child formals code loc)
      (Lower.lift env (child.shift k) (formals.map (·.shift k)) (code.shift k) loc) := by
  have hparams : (child.shift k).free.map (·.2) ++ formals.map (·.shift k) =
      (child.free.map (·.2) ++ formals).map (·.shift k) := by
    simp [Body.shift]
  unfold Lower.lift
  rw [Body.shift_names, hparams]
  refine (readNames_inStep loc _).bind fun captured =>
    (define_inStep env child.dest _ code loc).bind fun _ => ?_
  cases captured with
  | nil => exact .pure rfl
  | cons n ns => exact .pure (by simp [Node.shift, Body.shift])

theorem lowerClosure_inStep (env : Env) (params : Params Expr) {code code' : Lower Node}
    (hcode : InStep k (Node.shift k) code code') (loc : Option Location) (name : Option String)
    (ref : Option Symbol) :
    InStep k (Node.shift k) (Lower.lowerClosure env params code loc name ref)
      (Lower.lowerClosure env params code' loc name (ref.map (·.shift k))) := by
  have hinside : InStep k (fun p => (p.1.map (·.shift k), p.2.shift k))
      (do
        let formals ← Lower.bindFreshAll (params.positional.map (·.name))
        return (formals, ← code) : Lower (List Symbol × Node))
      (do
        let formals ← Lower.bindFreshAll (params.positional.map (·.name))
        return (formals, ← code')) :=
    (bindFreshAll_inStep _).bind fun _ => hcode.bind fun _ => .pure rfl
  exact (closureBody_inStep name ref).bind fun child =>
    (within_inStep hinside { child with returnError := none }).bind fun r =>
      lift_inStep env r.2 r.1.1 r.1.2 loc

end Lambdas

/-- A branch with its tokens shifted. -/
def Lower.Branch.shift (k : Nat) (b : Lower.Branch) : Lower.Branch :=
  ⟨b.items.map (·.shift k), b.body.shift k⟩

/-- The inside of a loop with its tokens shifted. -/
def Lower.LoopParts.shift (k : Nat) (p : Lower.LoopParts) : Lower.LoopParts :=
  ⟨p.formals.map (·.shift k), p.exits.map (·.shift k), p.test.shift k, p.code.shift k⟩

section Constructs

variable {env : Env} {loc : Option Location} {test test' : Lower Node}
  {statements statements' : Lower (List Item)}

theorem branchCall_shift (test whenTrue whenFalse : Node) (loc : Option Location) :
    branchCall (test.shift k) (whenTrue.shift k) (whenFalse.shift k) loc =
      (branchCall test whenTrue whenFalse loc).shift k := by
  simp [branchCall, Node.shift, Flat.switch]

theorem lowerBranch_inStep (tag : String)
    (hst : InStep k (List.map (Item.shift k)) statements statements') :
    InStep k (Lower.Branch.shift k) (Lower.lowerBranch tag statements)
      (Lower.lowerBranch tag statements') :=
  InStep.body.bind fun b => (derive_inStep b.dest tag).bind fun ref =>
    (closureBody_inStep none (some ref)).bind fun child =>
      (within_inStep hst child).bind fun _ => .pure rfl

theorem branchResult_inStep (b : Lower.Branch) (returns : Bool) (names : List String)
    (loc : Option Location) :
    InStep k (Option.map (Node.shift k)) (Lower.branchResult b returns names loc)
      (Lower.branchResult (b.shift k) returns names loc) := by
  have hvalue : ∀ x, InStep k (Node.shift k)
      (do return Node.ref loc (← Lower.currentIn b.body.frame x loc))
      (do return Node.ref loc (← Lower.currentIn b.body.frame x loc)) := fun x =>
    (currentIn_inStep _ x loc).bind fun _ => .pure rfl
  unfold Lower.branchResult
  refine .ite (.pure rfl) ?_
  rcases names with - | ⟨x, - | ⟨y, names⟩⟩
  · exact (InStep.mapM hvalue []).bind fun _ => .pure (by simp [Node.shift])
  · exact (currentIn_inStep _ x loc).bind fun _ => .pure rfl
  · exact (InStep.mapM hvalue (x :: y :: names)).bind fun _ => .pure (by simp [Node.shift])

theorem buildBranch_inStep (env : Env) (b : Lower.Branch) (result : Option Node)
    (loc : Option Location) :
    InStep k (Node.shift k) (Lower.buildBranch env b result loc)
      (Lower.buildBranch env (b.shift k) (result.map (·.shift k)) loc) := by
  refine (InStep.ofExcept (group_shift b.items result loc)).bind fun code => ?_
  rw [Node.shift_loc]
  exact lift_inStep env b.body [] code _

theorem bindResults_inStep (returns : Bool) (names : List String) (app : Node)
    (loc : Option Location) :
    InStep k (List.map (Item.shift k)) (Lower.bindResults returns names app loc)
      (Lower.bindResults returns names (app.shift k) loc) := by
  unfold Lower.bindResults
  refine .ite (.pure rfl) ?_
  rcases names with - | ⟨x, - | ⟨y, names⟩⟩
  · exact (issue_inStep "tmp" .local_).bind fun _ => .pure rfl
  · exact (assign_inStep x app loc).bind fun _ => .pure rfl
  · exact assignAll_inStep _ app loc

theorem mergeBranches_inStep (env : Env) (loc : Option Location) (test : Node) (T F : Lower.Branch) :
    InStep k (List.map (Item.shift k)) (Lower.mergeBranches env loc test T F)
      (Lower.mergeBranches env loc (test.shift k) (T.shift k) (F.shift k)) := by
  -- Behind the checks, one branch is built after the other.
  have hbuild : InStep k (List.map (Item.shift k))
      (do
        let rT ← Lower.branchResult T T.body.hasReturned T.body.assigned loc
        let nT ← Lower.buildBranch env T rT loc
        let rF ← Lower.branchResult F T.body.hasReturned T.body.assigned loc
        let nF ← Lower.buildBranch env F rF loc
        Lower.bindResults T.body.hasReturned T.body.assigned (branchCall test nT nF loc) loc)
      (do
        let rT ← Lower.branchResult (T.shift k) T.body.hasReturned T.body.assigned loc
        let nT ← Lower.buildBranch env (T.shift k) rT loc
        let rF ← Lower.branchResult (F.shift k) T.body.hasReturned T.body.assigned loc
        let nF ← Lower.buildBranch env (F.shift k) rF loc
        Lower.bindResults T.body.hasReturned T.body.assigned (branchCall (test.shift k) nT nF loc)
          loc) :=
    (branchResult_inStep T _ _ loc).bind fun _ => (buildBranch_inStep env T _ loc).bind fun _ =>
      (branchResult_inStep F _ _ loc).bind fun _ => (buildBranch_inStep env F _ loc).bind fun _ => by
        rw [branchCall_shift]
        exact bindResults_inStep _ _ _ loc
  exact .ite (.refuse _ _) (.ite (.refuse _ _) (.ite (markReturned_inStep.bind fun _ => hbuild) hbuild))

theorem dryRun_inStep (htest : InStep k (Node.shift k) test test')
    (hst : InStep k (List.map (Item.shift k)) statements statements') :
    InStep k id (Lower.dryRun test statements) (Lower.dryRun test' statements') := by
  have hsteps : InStep k id (do
      let _ ← test
      let _ ← statements) (do
      let _ ← test'
      let _ ← statements') := htest.bind fun _ => hst.bind fun _ => .pure rfl
  refine (childBody_inStep none false _).bind fun child =>
    (inScratch_inStep (within_inStep hsteps child)).bind fun r => .pure ?_
  simp only [Body.shift_names]
  rfl

theorem lowerInside_inStep (htest : InStep k (Node.shift k) test test')
    (hst : InStep k (List.map (Item.shift k)) statements statements') (ref : Symbol)
    (vars : LoopVariables) (loc : Option Location) :
    InStep k (Lower.LoopParts.shift k) (Lower.lowerInside ref vars test statements loc)
      (Lower.lowerInside (ref.shift k) vars test' statements' loc) :=
  (bindFreshAll_inStep vars.taken).bind fun _ => (currents_inStep loc vars.given).bind fun _ =>
    htest.bind fun _ => hst.bind fun items => (readNames_inStep loc vars.taken).bind fun updated => by
      have hgroup := group_shift (k := k) items (some (.apply loc (.ref loc ref) updated false)) loc
      simp only [Option.map_some, Node.shift, Flat.shiftAll_eq_map] at hgroup
      exact (InStep.ofExcept hgroup).bind fun _ => .pure rfl

theorem lowerLoop_inStep (htest : InStep k (Node.shift k) test test')
    (hst : InStep k (List.map (Item.shift k)) statements statements') (env : Env)
    (loc : Option Location) :
    InStep k (List.map (Item.shift k)) (Lower.lowerLoop env loc test statements)
      (Lower.lowerLoop env loc test' statements') := by
  refine (dryRun_inStep htest hst).bind fun vars => (currents_inStep loc vars.given).bind fun _ =>
    (readNames_inStep loc vars.taken).bind fun initial => InStep.body.bind fun b =>
      (derive_inStep b.dest "loop").bind fun loopRef => InStep.body.bind fun b =>
        (derive_inStep b.dest "continue").bind fun continueRef =>
          (childBody_inStep (some loopRef) false _).bind fun child =>
            (within_inStep (lowerInside_inStep htest hst loopRef vars loc) child).bind fun r => ?_
  -- what the loop and its continuation are made of is shifted part by part
  obtain ⟨⟨formals, exits, test, code⟩, body⟩ := r
  have hturn := define_inStep (k := k) env loopRef formals (branchCall test
    (.closure loc continueRef (formals.map (.ref loc))) (.closure loc Flat.identity [.tuple loc exits])
    loc) loc
  have hcall := assignAll_inStep (k := k) vars.given (.apply loc (.ref loc loopRef) initial false) loc
  rw [← branchCall_shift] at hturn
  simp only [Node.shift, Flat.shiftAll_eq_map, List.map_map, Function.comp_def, List.map_cons,
    List.map_nil, Flat.identity, Symbol.shift_builtin] at hturn hcall
  refine (define_inStep env continueRef formals code loc).bind fun _ => ?_
  simp only [Lower.LoopParts.shift, List.map_map, Function.comp_def]
  exact hturn.bind fun _ => hcall

end Constructs

section Trees

variable {env : Env} {loc : Option Location}

theorem requirePositional_inStep (params : Params Expr) (loc : Option Location) :
    InStep k id (Lower.requirePositional params loc) (Lower.requirePositional params loc) :=
  .ite (.refuse _ _) (.ite (.refuse _ _) (.ite (.refuse _ _) (.pure rfl)))

theorem refuseStarred_inStep (env : Env) (es : List Expr) :
    InStep k id (Lower.refuseStarred env es) (Lower.refuseStarred env es) := by
  induction es with
  | nil => exact .pure rfl
  | cons e es ih =>
    unfold Lower.refuseStarred
    split
    · exact .pure rfl
    · exact .refuse _ _
    · rename_i heq
      cases heq
      exact ih

theorem operatorNode_inStep (op : Operator) (loc : Option Location) :
    InStep k (Node.shift k) (Lower.operatorNode op loc) (Lower.operatorNode op loc) := by
  unfold Lower.operatorNode
  split
  · exact .pure (by simp [Node.shift])
  · exact .throw (.refl _)

theorem lowerExprs_inStep {es : List Expr}
    (h : ∀ e ∈ es, InStep k (Node.shift k) (Lower.lowerExpr env e) (Lower.lowerExpr env e)) :
    InStep k (List.map (Node.shift k)) (Lower.lowerExprs env es) (Lower.lowerExprs env es) := by
  induction es with
  | nil => exact .pure rfl
  | cons e es ih =>
    rw [Lower.lowerExprs]
    exact (h e (by simp)).bind fun _ =>
      (ih fun e' he' => h e' (List.mem_cons_of_mem _ he')).bind fun _ => .pure rfl

theorem lowerOption_inStep {o : Option Expr} (v : Literal)
    (h : ∀ e ∈ o, InStep k (Node.shift k) (Lower.lowerExpr env e) (Lower.lowerExpr env e)) :
    InStep k (Node.shift k) (Lower.lowerOption env o v) (Lower.lowerOption env o v) := by
  cases o with
  | none => exact .pure rfl
  | some e => exact h e rfl

theorem lowerExpr_inStep (hx : env.expansions = []) (e : Expr) :
    InStep k (Node.shift k) (Lower.lowerExpr env e) (Lower.lowerExpr env e) := by
  induction e using Expr.ind with
  | name sp x =>
    rw [Lower.lowerExpr]
    exact readName_inStep x _
  | constant sp v =>
    rw [Lower.lowerExpr]
    exact .pure rfl
  | binary sp op l r ihl ihr =>
    rw [Lower.lowerExpr]
    exact (operatorNode_inStep op _).bind fun _ => ihl.bind fun _ => ihr.bind fun _ => .pure rfl
  | unary sp op x ih =>
    rw [Lower.lowerExpr]
    exact (operatorNode_inStep op _).bind fun _ => ih.bind fun _ => .pure rfl
  | compare sp l op r ihl ihr =>
    rw [Lower.lowerExpr]
    exact (operatorNode_inStep op _).bind fun _ => ihl.bind fun _ => ihr.bind fun _ => .pure rfl
  | chain sp l rest hlen =>
    rcases rest with - | ⟨⟨op, r⟩, - | ⟨_, _⟩⟩
    · simp only [Lower.lowerExpr]
      exact .refuse _ _
    · simp at hlen
    · simp only [Lower.lowerExpr]
      exact .refuse _ _
  | call sp f args ks ihf ihargs =>
    have hplain : Lower.expansionOf? env f = none := by
      unfold Lower.expansionOf?
      split
      · rw [hx]
        rfl
      · rfl
    simp only [Lower.lowerExpr, hplain]
    refine .ite (.refuse _ _) ?_
    exact (refuseStarred_inStep env args).bind fun _ => (lowerExprs_inStep ihargs).bind fun ns =>
      ihf.bind fun _ => .pure (by simp [Node.shift])
  | attr sp v name ih =>
    rw [Lower.lowerExpr]
    exact ih.bind fun _ => .pure (by simp [Node.shift, Flat.getattr])
  | subscript sp v i ihv ihi =>
    rw [Lower.lowerExpr]
    exact ihv.bind fun _ => ihi.bind fun _ => .pure (by simp [Node.shift, Flat.index])
  | slice sp a b c iha ihb ihc =>
    rw [lowerExpr_slice]
    exact (lowerOption_inStep _ iha).bind fun _ => (lowerOption_inStep _ ihb).bind fun _ =>
      (lowerOption_inStep _ ihc).bind fun _ => .pure (by simp [Node.shift, Flat.slice])
  | extSlice sp es ih =>
    rw [Lower.lowerExpr]
    exact (lowerExprs_inStep ih).bind fun _ => .pure (by simp [Node.shift])
  | tuple sp es ih =>
    rw [Lower.lowerExpr]
    exact (lowerExprs_inStep ih).bind fun _ => .pure (by simp [Node.shift])
  | lambda sp ps b ih =>
    rw [Lower.lowerExpr]
    exact (requirePositional_inStep ps _).bind fun _ => lowerClosure_inStep env ps ih _ none none
  | foreign e hf =>
    cases e <;> simp [Expr.isForeign] at hf <;> rw [Lower.lowerExpr] <;> exact .refuse _ _

theorem lowerAssign_inStep (hx : env.expansions = []) (loc : Option Location) (target value : Expr) :
    InStep k (List.map (Item.shift k)) (Lower.lowerAssign env loc target value)
      (Lower.lowerAssign env loc target value) := by
  unfold Lower.lowerAssign
  split
  · exact (lowerExpr_inStep hx value).bind fun v => (assign_inStep _ v loc).bind fun _ => .pure rfl
  · split
    · refine (lowerExpr_inStep hx value).bind fun v => (lowerExpr_inStep hx _).bind fun o =>
        (lowerExpr_inStep hx _).bind fun i => ?_
      have hset := assign_inStep (k := k) ‹String› (.apply loc (.ref loc Flat.setslice) [o, i, v] false) loc
      simp only [Node.shift, Flat.shiftAll_eq_map, List.map_cons, List.map_nil, Flat.setslice,
        Symbol.shift_builtin] at hset
      exact hset.bind fun _ => .pure rfl
    · exact .refuse _ _
  · exact .refuse _ _
  · exact .refuse _ _
  · exact .refuse _ _

theorem lowerAugAssign_inStep (hx : env.expansions = []) (loc : Option Location) (target : Expr)
    (op : Operator) (value : Expr) :
    InStep k (List.map (Item.shift k)) (Lower.lowerAugAssign env loc target op value)
      (Lower.lowerAugAssign env loc target op value) := by
  unfold Lower.lowerAugAssign
  split
  · exact (lowerExpr_inStep hx value).bind fun v => (operatorNode_inStep op loc).bind fun f =>
      (readName_inStep _ loc).bind fun _ => (current_inStep _ loc).bind fun a =>
        (assign_inStep _ (.apply loc f [.ref loc a, v] false) loc).bind fun _ => .pure rfl
  · exact .refuse _ _
  · exact .refuse _ _

theorem lowerReturn_inStep (hx : env.expansions = []) (loc : Option Location) (value : Option Expr) :
    InStep k (List.map (Item.shift k)) (Lower.lowerReturn env loc value)
      (Lower.lowerReturn env loc value) := by
  refine InStep.body.bind fun b => ?_
  have hreturnError : (b.shift k).returnError = b.returnError := rfl
  rw [hreturnError]
  cases b.returnError with
  | some why => exact .refused _ _
  | none =>
    refine markReturned_inStep.bind fun _ => ?_
    cases value with
    | none => exact .pure rfl
    | some e => exact (lowerExpr_inStep hx e).bind fun _ => .pure rfl

theorem lowerFunction_inStep {statements : Lower (List Item)}
    (h : InStep k (List.map (Item.shift k)) statements statements) (env : Env) (loc : Option Location)
    (name : String) (params : Params Expr) (decorators : List Expr) (allow : Bool) :
    InStep k (List.map (Item.shift k))
      (Lower.lowerFunction env loc name params decorators allow statements)
      (Lower.lowerFunction env loc name params decorators allow statements) := by
  have hcode : InStep k (Node.shift k) (Lower.functionBody statements loc)
      (Lower.functionBody statements loc) :=
    h.bind fun items => .ofExcept (group_shift items none loc)
  have hdefine : ∀ ref : Symbol, InStep k (List.map (Item.shift k)) (do
      let sym ← Lower.bindFresh name
      let closure ← Lower.lowerClosure env params (Lower.functionBody statements loc) loc (some name)
        (some ref)
      return [Item.assign ⟨sym, closure, loc⟩]) (do
      let sym ← Lower.bindFresh name
      let closure ← Lower.lowerClosure env params (Lower.functionBody statements loc) loc (some name)
        (some (ref.shift k))
      return [Item.assign ⟨sym, closure, loc⟩]) := fun ref =>
    (bindFresh_inStep name).bind fun _ =>
      (lowerClosure_inStep env params hcode loc (some name) (some ref)).bind fun _ => .pure rfl
  refine (requirePositional_inStep params loc).bind fun _ => .ite (.refuse _ _) ?_
  refine InStep.body.bind fun b => .ite ?_ ((issue_inStep name .global_).bind hdefine)
  have hglobal := hdefine (.global name)
  rwa [Symbol.shift_global] at hglobal

theorem lowerBlock_inStep_of {b : List Stmt} (h : ∀ st ∈ b, InStep k (List.map (Item.shift k))
      (Lower.lowerStmt env st false) (Lower.lowerStmt env st false)) :
    InStep k (List.map (Item.shift k)) (Lower.lowerBlock env b) (Lower.lowerBlock env b) := by
  induction b with
  | nil =>
    rw [Lower.lowerBlock]
    exact .pure rfl
  | cons st b ih =>
    have hrest := ih fun st' hst' => h st' (List.mem_cons_of_mem _ hst')
    rw [Lower.lowerBlock]
    refine InStep.body.bind fun bd => .ite (.refuse _ _) ?_
    exact (h st (by simp)).bind fun _ => hrest.bind fun _ => .pure (by simp)

/-- Two runs of a statement, of which one has issued more symbols, are in step. -/
theorem lowerStmt_inStep (hx : env.expansions = []) (st : Stmt) : ∀ allow,
    InStep k (List.map (Item.shift k)) (Lower.lowerStmt env st allow) (Lower.lowerStmt env st allow) := by
  induction st using Stmt.ind with
  | expr sp v =>
    intro allow
    rw [Lower.lowerStmt]
    exact (lowerExpr_inStep hx v).bind fun _ => .pure rfl
  | assign sp ts v =>
    intro allow
    rcases ts with - | ⟨target, - | ⟨_, _⟩⟩
    · simp only [Lower.lowerStmt]
      exact .refuse _ _
    · simp only [Lower.lowerStmt]
      exact lowerAssign_inStep hx _ target v
    · simp only [Lower.lowerStmt]
      exact .refuse _ _
  | augAssign sp target op v =>
    intro allow
    rw [Lower.lowerStmt]
    exact lowerAugAssign_inStep hx _ target op v
  | functionDef sp f ps b ds ih =>
    intro allow
    rw [Lower.lowerStmt]
    exact lowerFunction_inStep (lowerBlock_inStep_of fun st hst => ih st hst false) env _ f ps ds allow
  | returnValue sp v =>
    intro allow
    rw [Lower.lowerStmt]
    exact lowerReturn_inStep hx _ v
  | ifElse sp c b o ihb iho =>
    intro allow
    have hb := lowerBlock_inStep_of fun st hst => ihb st hst false
    have ho := lowerBlock_inStep_of fun st hst => iho st hst false
    rw [Lower.lowerStmt]
    exact (lowerExpr_inStep hx c).bind fun test => (lowerBranch_inStep "then" hb).bind fun T =>
      (lowerBranch_inStep "else" ho).bind fun F => mergeBranches_inStep env _ test T F
  | whileLoop sp c b o ih =>
    intro allow
    have hb := lowerBlock_inStep_of fun st hst => ih st hst false
    simp only [Lower.lowerStmt]
    exact .ite (.refuse _ _) (lowerLoop_inStep (lowerExpr_inStep hx c) hb env _)
  | foreign st hf =>
    intro allow
    cases st <;> simp [Stmt.isForeign] at hf <;> rw [Lower.lowerStmt] <;> exact .refuse _ _

/-- The entry of a module is a global symbol: it is not shifted. -/
theorem lowerEntry_inStep (hx : env.expansions = []) (m : Surface.Module) :
    InStep k id (Lower.lowerEntry env m) (Lower.lowerEntry env m) := by
  unfold Lower.lowerEntry
  split
  · split
    · exact (lowerStmt_inStep hx _ true).bind fun _ => .pure rfl
    · exact .refuse _ _
  · exact .refuse _ _

end Trees

end Hoist.Lowering
