import Hoist.Proofs.Lowering.Aftermath
import Mathlib.Logic.Relation

/-!
# The states a body passes

Lowering takes a body from state to state in few ways: symbols are issued, names are bound, read and
assigned in its frame, and while it waits for an inner body the same happens in a newer frame. `Next`
has one rule for each of these ways, and every step of lowering, whether it succeeds or fails, goes on
by them alone. What the rules keep is therefore kept in all the states that a body passes, also in the
middle of a statement.
-/

namespace Hoist.Lowering

open Hoist.Flat (Symbol Node Location Space Table)
open Hoist.Surface (Expr Stmt Operator Params)

/-- What may happen next to the body of a state. Between the two parts of a read of a free name, and of
an assignment, stands the state in which the name is declared. -/
inductive Next : State → State → Prop
  | issue (s : State) : Next s s.issuing
  | declare (s : State) (name : String) : Next s ((Lower.bindFresh name).after s)
  | read (s : State) (name : String) (loc : Option Location) :
      Next s ((Lower.readName name loc).after s)
  | assign (s : State) (name : String) (value : Node) (loc : Option Location) :
      Next s ((Lower.assign name value loc).after s)
  | leave (s : State) : Next s { s with body := { s.body with hasReturned := true } }
  /-- The table and the log belong to all bodies. -/
  | record (s : State) (table : Table) (commits : Bool) (log : String) :
      Next s { s with table := table, commits := commits, log := log }
  | nest {s : State} {frame : Nat} {scopes : Scopes}
      (h : s.scopes.child s.body.frame = .ok (frame, scopes)) : Next s { s with scopes := scopes }
  /-- A name is bound in a newer frame, whose body is to come. -/
  | prepare {s : State} {frame : Nat} (h : s.body.frame < frame) (name : String) (sym : Symbol) :
      Next s ((Lower.bind frame name sym).after s)
  /-- A body of a newer frame goes on, for which this one waits. -/
  | inner {s t : State} {body : Body} (h : s.body.frame < body.frame) (next : Next (s.resume body) t) :
      Next s (t.resume s.body)

/-- A body passes from one state to another one. -/
abbrev Passes : State → State → Prop := Relation.ReflTransGen Next

/-- A step that goes on from every state by what may happen to a body. -/
def Walks {α : Type} (x : Lower α) : Prop := ∀ s, Passes s (x.after s)

/-- A name is bound in a frame, if there is such a frame. -/
theorem after_bindName (s : State) (frame : Nat) (name : String) (sym : Symbol) :
    (Lower.bind frame name sym).after s =
      match s.scopes.bind frame name sym with
      | .ok scopes => { s with scopes := scopes }
      | .error _ => s := by
  have hbound : ∀ y : Except Failure Scopes,
      Lower.after (Lower.ofExcept y >>= fun scopes => set { s with scopes := scopes }) s =
        match y with
        | .ok scopes => { s with scopes := scopes }
        | .error _ => s := by
    intro y
    cases y <;> rfl
  exact hbound _

/-- The body stays the same one. -/
theorem Next.sameBody {s t : State} (h : Next s t) : SameBody s.body t.body := by
  cases h with
  | issue | record | nest | inner => exact .refl _
  | leave => exact ⟨rfl, rfl, rfl, rfl, rfl⟩
  | declare _ name => exact (bindFresh_tame name s).body
  | read _ name loc => exact (readName_tame name loc s).body
  | assign _ name value loc => exact (assign_tame name value loc s).body
  | @prepare _ frame _ name sym =>
    rw [after_bindName]
    cases s.scopes.bind frame name sym <;> exact .refl _

namespace Passes

variable {α : Type} {s t u : State} {x : Lower α} {inner : Body}

theorem sameBody (h : Passes s t) : SameBody s.body t.body := by
  induction h with
  | refl => exact .refl _
  | tail _ next ih => exact ih.trans next.sameBody

/-- A body waits while one of a newer frame passes through states. -/
theorem inside (hframe : s.body.frame < inner.frame) (h : Passes (s.resume inner) t) :
    Passes s (t.resume s.body) := by
  induction h with
  | refl => exact .refl
  | @tail t u ht next ih =>
    have hnext : Next ((t.resume s.body).resume t.body) u := next
    refine ih.tail (.inner ?_ hnext)
    rw [(sameBody ht).frame]
    exact hframe

theorem within {step : Lower α} (hframe : s.body.frame < inner.frame) (h : Walks step) :
    Passes s ((Lower.within inner step).after s) := by
  rw [after_within]
  exact inside hframe (h _)

end Passes

namespace Walks

variable {α β : Type} {x : Lower α} {f : α → Lower β}

theorem of_next (h : ∀ s, Next s (x.after s)) : Walks x := fun s => .single (h s)

theorem pure (a : α) : Walks (Pure.pure a) := fun _ => .refl

theorem throw (e : Failure) : Walks (MonadExcept.throw e : Lower α) := fun _ => .refl

theorem refuse (c : Cause) (l : Option Location) : Walks (Lower.refuse c l : Lower α) := throw _

/-- What comes behind a refusal is never reached. -/
theorem refused (c : Cause) (l : Option Location) : Walks (Lower.refuse c l >>= f) := fun _ => .refl

theorem ofExcept (y : Except Failure α) : Walks (Lower.ofExcept y) := fun _ => by
  cases y <;> exact .refl

theorem get : Walks (MonadState.get : Lower State) := fun _ => .refl

theorem bind (hx : Walks x) (hf : ∀ a, Walks (f a)) : Walks (x >>= f) := fun s =>
  after_bind (hx s) fun a t _ h => h.trans (hf a t)

theorem body : Walks Lower.body := get.bind fun _ => pure _

theorem mapM {g : α → Lower β} (hg : ∀ a, Walks (g a)) (as : List α) : Walks (as.mapM g) := by
  induction as with
  | nil => exact .pure _
  | cons a as ih =>
    rw [List.mapM_cons]
    exact (hg a).bind fun _ => ih.bind fun _ => .pure _

end Walks

section Names

theorem issue_walks (name : String) (space : Space) : Walks (Lower.issue name space) :=
  .of_next .issue

theorem derive_walks (parent : Symbol) (tag : String) : Walks (Lower.derive parent tag) :=
  .of_next .issue

theorem bindFresh_walks (name : String) : Walks (Lower.bindFresh name) :=
  .of_next fun s => .declare s name

theorem readName_walks (name : String) (loc : Option Location) : Walks (Lower.readName name loc) :=
  .of_next fun s => .read s name loc

theorem assign_walks (name : String) (value : Node) (loc : Option Location) :
    Walks (Lower.assign name value loc) :=
  .of_next fun s => .assign s name value loc

theorem markReturned_walks :
    Walks (Lower.modifyBody fun b => { b with hasReturned := true }) :=
  .of_next .leave

theorem currentIn_walks (frame : Nat) (name : String) (loc : Option Location) :
    Walks (Lower.currentIn frame name loc) :=
  Walks.get.bind fun _ => (Walks.ofExcept _).bind fun _ => .pure _

theorem current_walks (name : String) (loc : Option Location) : Walks (Lower.current name loc) :=
  Walks.body.bind fun b => currentIn_walks b.frame name loc

theorem assignItems_walks (tuple : Symbol) (loc : Option Location) (i : Nat) (names : List String) :
    Walks (Lower.assignItems tuple loc i names) := by
  induction names generalizing i with
  | nil => exact .pure _
  | cons x names ih => exact (assign_walks x _ loc).bind fun _ => (ih (i + 1)).bind fun _ => .pure _

theorem assignAll_walks (names : List String) (value : Node) (loc : Option Location) :
    Walks (Lower.assignAll names value loc) :=
  (issue_walks "tmp" .local_).bind fun tuple => (assignItems_walks tuple loc 0 names).bind fun _ =>
    .pure _

theorem readNames_walks (loc : Option Location) (names : List String) :
    Walks (Lower.readNames loc names) := by
  induction names with
  | nil => exact .pure _
  | cons x names ih => exact (readName_walks x loc).bind fun _ => ih.bind fun _ => .pure _

theorem currents_walks (loc : Option Location) (names : List String) :
    Walks (Lower.currents loc names) := by
  induction names with
  | nil => exact .pure _
  | cons x names ih => exact (current_walks x loc).bind fun _ => ih.bind fun _ => .pure _

theorem bindFreshAll_walks (names : List String) : Walks (Lower.bindFreshAll names) := by
  induction names with
  | nil => exact .pure _
  | cons x names ih => exact (bindFresh_walks x).bind fun _ => ih.bind fun _ => .pure _

end Names

section Lambdas

variable {s t : State} {env : Env} {loc : Option Location} {child : Body}

theorem define_walks (env : Env) (ref : Symbol) (params : List Symbol) (code : Node)
    (loc : Option Location) : Walks (Lower.define env ref params code loc) := by
  intro s
  refine after_bind (x := MonadState.get) (P := Passes s) .refl fun u v hu _ => ?_
  obtain ⟨rfl, rfl⟩ := Yields.get_iff.1 hu
  cases s.table.define? ⟨ref, params, code, loc⟩ with
  | none => exact .refl
  | some table =>
    have hrecord : ∀ log, Passes s { s with table := table, log := log } := fun log =>
      .single (.record s table s.commits log)
    have hset : Passes s (Lower.after (set { s with table := table }) s) := hrecord s.log
    refine after_bind (P := Passes s) hset fun _ v hv _ => ?_
    obtain rfl := Yields.set_iff.1 hv
    unfold Lower.logDefinition
    split <;> exact hrecord _

theorem lift_walks (env : Env) (child : Body) (formals : List Symbol) (code : Node)
    (loc : Option Location) : Walks (Lower.lift env child formals code loc) :=
  (readNames_walks loc _).bind fun captured => (define_walks env _ _ code loc).bind fun _ => by
    split <;> exact .pure _

theorem childBody_walks (dest : Option Symbol) (pulling : Bool) (err : Option String) :
    Walks (Lower.childBody dest pulling err) := by
  intro s
  refine after_bind (x := MonadState.get) (P := Passes s) .refl fun u v hu _ => ?_
  obtain ⟨rfl, rfl⟩ := Yields.get_iff.1 hu
  cases hsc : s.scopes.child s.body.frame with
  | error e => exact .refl
  | ok p =>
    obtain ⟨frame, scopes⟩ := p
    have hnest : Passes s { s with scopes := scopes } := .single (.nest hsc)
    have hset : Passes s (Lower.after (set { s with scopes := scopes }) s) := hnest
    refine after_bind (x := Lower.ofExcept (.ok (frame, scopes))) (P := Passes s) .refl fun p v hp _ => ?_
    obtain ⟨hp, rfl⟩ := Yields.ofExcept_iff.1 hp
    cases hp
    refine after_bind (P := Passes s) hset fun _ v hv _ => ?_
    obtain rfl := Yields.set_iff.1 hv
    cases dest with
    | some d => exact hnest
    | none => exact hnest.tail (.issue _)

/-- An inner body has a newer frame than the one it is made in. -/
theorem childBody_newer {dest : Option Symbol} {pulling : Bool} {err : Option String}
    (h : Yields (Lower.childBody dest pulling err) s child t) : t.body.frame < child.frame := by
  have hbody := h.after ▸ (childBody_untouched dest pulling err s).body
  rw [(childBody_frame h).1, hbody]
  simp only [Lower.childBody, Yields.bind_iff, Yields.get_iff, Yields.ofExcept_iff] at h
  obtain ⟨_, _, ⟨rfl, rfl⟩, _, _, ⟨hsc, -⟩, -⟩ := h
  exact (Scopes.child_spec hsc).1

/-- A closure gets a newer frame, in which it may have its own name. -/
theorem closureBody_passes (name : Option String) (ref : Option Symbol) (s : State) :
    Passes s ((Lower.closureBody name ref).after s) ∧
      ∀ child t, Yields (Lower.closureBody name ref) s child t → t.body.frame < child.frame := by
  have hsome : ∀ ref s, Passes s ((Lower.closureBody name (some ref)).after s) ∧
      ∀ child t, Yields (Lower.closureBody name (some ref)) s child t →
        t.body.frame < child.frame := by
    intro ref s
    rw [closureBody_some]
    constructor
    · refine after_bind (Walks.body s) fun b u hu h => ?_
      refine after_bind (h.trans (childBody_walks _ _ _ u)) fun child v hv h => ?_
      refine after_bind (P := Passes s) ?_ fun _ _ _ h => h
      cases name with
      | none => exact h
      | some n => exact h.tail (.prepare (childBody_newer hv) n ref)
    · intro child t h
      simp only [Yields.bind_iff, Yields.body_iff, Yields.pure_iff] at h
      obtain ⟨_, _, ⟨rfl, rfl⟩, _, u, hu, _, _, hname, rfl, rfl⟩ := h
      have hnewer := childBody_newer hu
      cases name with
      | none =>
        obtain ⟨-, rfl⟩ := Yields.pure_iff.1 hname
        exact hnewer
      | some n =>
        obtain ⟨scopes, -, rfl⟩ := Yields.bind_name_iff.1 hname
        exact hnewer
  cases ref with
  | some ref => exact hsome ref s
  | none =>
    rw [closureBody_none]
    refine ⟨(issue_walks _ _).bind (fun ref s => (hsome ref s).1) s, fun child t h => ?_⟩
    obtain ⟨ref, u, -, h⟩ := Yields.bind_iff.1 h
    exact (hsome ref u).2 child t h

/-- A closure is made and its body is lowered, for which the body around it waits. -/
theorem closureWithin_walks {α β : Type} {step : Lower α} {f : Body → Body} {g : Body → α × Body → Lower β}
    (name : Option String) (ref : Option Symbol) (hf : ∀ b, (f b).frame = b.frame)
    (hstep : Walks step) (hg : ∀ b r, Walks (g b r)) :
    Walks (do
      let child ← Lower.closureBody name ref
      let r ← Lower.within (f child) step
      g child r : Lower β) := fun s => by
  refine after_bind (closureBody_passes name ref s).1 fun child t ht h => ?_
  have hnewer : t.body.frame < (f child).frame := by
    rw [hf]
    exact (closureBody_passes name ref s).2 child t ht
  exact after_bind (h.trans (Passes.within hnewer hstep)) fun r u _ h => h.trans (hg child r u)

theorem lowerClosure_walks (env : Env) (params : Params Expr) {code : Lower Node} (hcode : Walks code)
    (loc : Option Location) (name : Option String) (ref : Option Symbol) :
    Walks (Lower.lowerClosure env params code loc name ref) := by
  have hstep : Walks (do
      let formals ← Lower.bindFreshAll (params.positional.map (·.name))
      return (formals, ← code) : Lower (List Symbol × Node)) :=
    (bindFreshAll_walks _).bind fun _ => hcode.bind fun _ => .pure _
  exact closureWithin_walks name ref (f := fun b => { b with returnError := none }) (fun _ => rfl) hstep
    fun _ r => lift_walks env r.2 r.1.1 r.1.2 loc

theorem lowerBranch_walks (tag : String) {statements : Lower (List Item)} (hst : Walks statements) :
    Walks (Lower.lowerBranch tag statements) :=
  Walks.body.bind fun b => (derive_walks b.dest tag).bind fun ref =>
    closureWithin_walks none (some ref) (f := id) (fun _ => rfl) hst fun _ _ => .pure _

theorem branchResult_walks (b : Lower.Branch) (returns : Bool) (names : List String)
    (loc : Option Location) : Walks (Lower.branchResult b returns names loc) := by
  unfold Lower.branchResult
  split
  · exact .pure _
  · split
    · exact (currentIn_walks _ _ loc).bind fun _ => .pure _
    · exact (Walks.mapM (fun x => (currentIn_walks _ x loc).bind fun _ => .pure _) names).bind
        fun _ => .pure _

theorem buildBranch_walks (env : Env) (b : Lower.Branch) (result : Option Node) (loc : Option Location) :
    Walks (Lower.buildBranch env b result loc) :=
  (Walks.ofExcept _).bind fun code => lift_walks env b.body [] code _

theorem bindResults_walks (returns : Bool) (names : List String) (app : Node) (loc : Option Location) :
    Walks (Lower.bindResults returns names app loc) := by
  unfold Lower.bindResults
  split
  · exact .pure _
  · split
    · exact (issue_walks _ _).bind fun _ => .pure _
    · exact (assign_walks _ _ loc).bind fun _ => .pure _
    · exact assignAll_walks _ _ loc

theorem mergeBranches_walks (env : Env) (loc : Option Location) (test : Node)
    (T F : Lower.Branch) : Walks (Lower.mergeBranches env loc test T F) := by
  -- Behind the checks, one branch is built after the other.
  have hbuild : ∀ returns (last : Node → Node → Lower (List Item)), (∀ nT nF, Walks (last nT nF)) →
      Walks (do
        let rT ← Lower.branchResult T returns T.body.assigned loc
        let nT ← Lower.buildBranch env T rT loc
        let rF ← Lower.branchResult F returns T.body.assigned loc
        let nF ← Lower.buildBranch env F rF loc
        last nT nF) := fun returns last hlast =>
    (branchResult_walks T returns _ loc).bind fun _ => (buildBranch_walks env T _ loc).bind fun _ =>
      (branchResult_walks F returns _ loc).bind fun _ => (buildBranch_walks env F _ loc).bind fun _ =>
        hlast _ _
  have hresults : ∀ returns nT nF, Walks (Lower.bindResults returns T.body.assigned
      (branchCall test nT nF loc) loc) := fun returns _ _ => bindResults_walks returns _ _ loc
  unfold Lower.mergeBranches
  simp only []
  split
  · exact .refuse _ _
  · split
    · exact .refuse _ _
    · split
      · exact markReturned_walks.bind fun _ => hbuild _ _ (hresults true)
      · exact hbuild _ _ (hresults false)

theorem dryRun_walks {test : Lower Node} {statements : Lower (List Item)} (htest : Walks test)
    (hst : Walks statements) : Walks (Lower.dryRun test statements) := by
  intro s
  refine after_bind (childBody_walks none false _ s) fun child t ht h => ?_
  refine after_bind ?_ fun _ _ _ h => h
  rw [after_inScratch]
  have hsteps : Walks (do
      let _ ← test
      let _ ← statements) := htest.bind fun _ => hst.bind fun _ => .pure _
  have hnewer := childBody_newer ht
  have hinside : Passes t.scratch ((Lower.within child (do
      let _ ← test
      let _ ← statements)).after t.scratch) := Passes.within hnewer hsteps
  exact ((h.tail (.record t .empty false t.log)).trans hinside).tail (.record _ t.table t.commits _)

theorem lowerInside_walks {test : Lower Node} {statements : Lower (List Item)} (htest : Walks test)
    (hst : Walks statements) (ref : Symbol) (vars : LoopVariables) (loc : Option Location) :
    Walks (Lower.lowerInside ref vars test statements loc) :=
  (bindFreshAll_walks vars.taken).bind fun _ => (currents_walks loc vars.given).bind fun _ =>
    htest.bind fun _ => hst.bind fun _ => (readNames_walks loc vars.taken).bind fun _ =>
      (Walks.ofExcept _).bind fun _ => .pure _

theorem lowerLoop_walks {test : Lower Node} {statements : Lower (List Item)} (htest : Walks test)
    (hst : Walks statements) (env : Env) (loc : Option Location) :
    Walks (Lower.lowerLoop env loc test statements) := by
  have hturn : ∀ loopRef vars, ∀ f : Body → Lower.LoopParts × Body → Lower (List Item),
      (∀ b r, Walks (f b r)) → Walks (do
        let child ← Lower.childBody (some loopRef) false (some returnInLoop)
        let r ← Lower.within child (Lower.lowerInside loopRef vars test statements loc)
        f child r) := fun loopRef vars f hf s =>
    after_bind (childBody_walks _ _ _ s) fun child t ht h =>
      after_bind (h.trans (Passes.within (childBody_newer ht) (lowerInside_walks htest hst loopRef vars loc)))
        fun r u _ h => h.trans (hf child r u)
  exact (dryRun_walks htest hst).bind fun vars => (currents_walks loc vars.given).bind fun _ =>
    (readNames_walks loc vars.taken).bind fun _ => Walks.body.bind fun _ =>
      (derive_walks _ "loop").bind fun loopRef => Walks.body.bind fun _ =>
        (derive_walks _ "continue").bind fun _ => hturn loopRef vars _ fun _ _ =>
          (define_walks env _ _ _ loc).bind fun _ => (define_walks env _ _ _ loc).bind fun _ =>
            assignAll_walks vars.given _ loc

end Lambdas

section Trees

variable {env : Env} {loc : Option Location}

theorem requirePositional_walks (params : Params Expr) (loc : Option Location) :
    Walks (Lower.requirePositional params loc) := by
  unfold Lower.requirePositional
  simp only []
  split
  · exact .refuse _ _
  · split
    · exact .refuse _ _
    · split
      · exact .refuse _ _
      · exact .pure _

theorem refuseStarred_walks (env : Env) (es : List Expr) : Walks (Lower.refuseStarred env es) := by
  induction es with
  | nil => exact .pure _
  | cons e es ih =>
    unfold Lower.refuseStarred
    split
    · exact .pure _
    · exact .refuse _ _
    · rename_i heq
      cases heq
      exact ih

theorem operatorNode_walks (op : Operator) (loc : Option Location) :
    Walks (Lower.operatorNode op loc) := by
  unfold Lower.operatorNode
  split
  · exact .pure _
  · exact .throw _

theorem lowerExprs_walks {es : List Expr} (h : ∀ e ∈ es, Walks (Lower.lowerExpr env e)) :
    Walks (Lower.lowerExprs env es) := by
  induction es with
  | nil => exact .pure _
  | cons e es ih =>
    rw [Lower.lowerExprs]
    exact (h e (by simp)).bind fun _ =>
      (ih fun e' he' => h e' (List.mem_cons_of_mem _ he')).bind fun _ => .pure _

theorem lowerOption_walks {o : Option Expr} (v : Literal)
    (h : ∀ e ∈ o, Walks (Lower.lowerExpr env e)) : Walks (Lower.lowerOption env o v) := by
  cases o with
  | none => exact .pure _
  | some e => exact h e rfl

theorem lowerExpr_walks (env : Env) (e : Expr) : Walks (Lower.lowerExpr env e) := by
  induction e using Expr.ind with
  | name sp x =>
    rw [Lower.lowerExpr]
    exact readName_walks x _
  | constant sp v =>
    rw [Lower.lowerExpr]
    exact .pure _
  | binary sp op l r ihl ihr =>
    rw [Lower.lowerExpr]
    exact (operatorNode_walks op _).bind fun _ => ihl.bind fun _ => ihr.bind fun _ => .pure _
  | unary sp op x ih =>
    rw [Lower.lowerExpr]
    exact (operatorNode_walks op _).bind fun _ => ih.bind fun _ => .pure _
  | compare sp l op r ihl ihr =>
    rw [Lower.lowerExpr]
    exact (operatorNode_walks op _).bind fun _ => ihl.bind fun _ => ihr.bind fun _ => .pure _
  | chain sp l rest hlen =>
    rcases rest with - | ⟨⟨op, r⟩, - | ⟨_, _⟩⟩
    · simp only [Lower.lowerExpr]
      exact .refuse _ _
    · simp at hlen
    · simp only [Lower.lowerExpr]
      exact .refuse _ _
  | call sp f args ks ihf ihargs =>
    simp only [Lower.lowerExpr]
    split
    · exact .refuse _ _
    · refine (refuseStarred_walks env args).bind fun _ => (lowerExprs_walks ihargs).bind fun ns => ?_
      split
      · split
        · exact .pure _
        · exact .throw _
      · exact ihf.bind fun _ => .pure _
  | attr sp v name ih =>
    rw [Lower.lowerExpr]
    exact ih.bind fun _ => .pure _
  | subscript sp v i ihv ihi =>
    rw [Lower.lowerExpr]
    exact ihv.bind fun _ => ihi.bind fun _ => .pure _
  | slice sp a b c iha ihb ihc =>
    rw [lowerExpr_slice]
    exact (lowerOption_walks _ iha).bind fun _ => (lowerOption_walks _ ihb).bind fun _ =>
      (lowerOption_walks _ ihc).bind fun _ => .pure _
  | extSlice sp es ih =>
    rw [Lower.lowerExpr]
    exact (lowerExprs_walks ih).bind fun _ => .pure _
  | tuple sp es ih =>
    rw [Lower.lowerExpr]
    exact (lowerExprs_walks ih).bind fun _ => .pure _
  | lambda sp ps b ih =>
    rw [Lower.lowerExpr]
    exact (requirePositional_walks ps _).bind fun _ => lowerClosure_walks env ps ih _ none none
  | foreign e hf =>
    cases e <;> simp [Expr.isForeign] at hf <;> rw [Lower.lowerExpr] <;> exact .refuse _ _

theorem lowerAssign_walks (env : Env) (loc : Option Location) (target value : Expr) :
    Walks (Lower.lowerAssign env loc target value) := by
  unfold Lower.lowerAssign
  split
  · exact (lowerExpr_walks env value).bind fun _ => (assign_walks _ _ loc).bind fun _ => .pure _
  · split
    · exact (lowerExpr_walks env value).bind fun _ => (lowerExpr_walks env _).bind fun _ =>
        (lowerExpr_walks env _).bind fun _ => (assign_walks _ _ loc).bind fun _ => .pure _
    · exact .refuse _ _
  · exact .refuse _ _
  · exact .refuse _ _
  · exact .refuse _ _

theorem lowerAugAssign_walks (env : Env) (loc : Option Location) (target : Expr) (op : Operator)
    (value : Expr) : Walks (Lower.lowerAugAssign env loc target op value) := by
  unfold Lower.lowerAugAssign
  split
  · exact (lowerExpr_walks env value).bind fun _ => (operatorNode_walks op loc).bind fun _ =>
      (readName_walks _ loc).bind fun _ => (current_walks _ loc).bind fun _ =>
        (assign_walks _ _ loc).bind fun _ => .pure _
  · exact .refuse _ _
  · exact .refuse _ _

theorem lowerReturn_walks (env : Env) (loc : Option Location) (value : Option Expr) :
    Walks (Lower.lowerReturn env loc value) := by
  refine Walks.body.bind fun b => ?_
  cases b.returnError with
  | some why => exact .refused _ _
  | none =>
    refine markReturned_walks.bind fun _ => ?_
    cases value with
    | none => exact .pure _
    | some e => exact (lowerExpr_walks env e).bind fun _ => .pure _

theorem lowerFunction_walks {statements : Lower (List Item)} (h : Walks statements) (env : Env)
    (loc : Option Location) (name : String) (params : Params Expr) (decorators : List Expr)
    (allow : Bool) :
    Walks (Lower.lowerFunction env loc name params decorators allow statements) := by
  have hcode : Walks (Lower.functionBody statements loc) := h.bind fun _ => .ofExcept _
  have hdefine : ∀ ref, Walks (do
      let sym ← Lower.bindFresh name
      let closure ← Lower.lowerClosure env params (Lower.functionBody statements loc) loc (some name)
        (some ref)
      return [Item.assign ⟨sym, closure, loc⟩]) := fun ref =>
    (bindFresh_walks name).bind fun _ =>
      (lowerClosure_walks env params hcode loc (some name) (some ref)).bind fun _ => .pure _
  refine (requirePositional_walks params loc).bind fun _ => ?_
  simp only []
  split
  · exact .refuse _ _
  · refine Walks.body.bind fun b => ?_
    split
    · exact hdefine _
    · exact (issue_walks name .global_).bind hdefine

theorem lowerBlock_walks_of {b : List Stmt} (h : ∀ st ∈ b, Walks (Lower.lowerStmt env st false)) :
    Walks (Lower.lowerBlock env b) := by
  induction b with
  | nil =>
    rw [Lower.lowerBlock]
    exact .pure _
  | cons st b ih =>
    have hrest := ih fun st' hst' => h st' (List.mem_cons_of_mem _ hst')
    rw [Lower.lowerBlock]
    refine Walks.body.bind fun bd => ?_
    simp only []
    split
    · exact .refuse _ _
    · exact (h st (by simp)).bind fun _ => hrest.bind fun _ => .pure _

/-- Whatever becomes of a statement, the body goes on by what may happen to it. -/
theorem lowerStmt_walks (env : Env) (st : Stmt) : ∀ allow, Walks (Lower.lowerStmt env st allow) := by
  induction st using Stmt.ind with
  | expr sp v =>
    intro allow
    rw [Lower.lowerStmt]
    exact (lowerExpr_walks env v).bind fun _ => .pure _
  | assign sp ts v =>
    intro allow
    rcases ts with - | ⟨target, - | ⟨_, _⟩⟩
    · simp only [Lower.lowerStmt]
      exact .refuse _ _
    · simp only [Lower.lowerStmt]
      exact lowerAssign_walks env _ target v
    · simp only [Lower.lowerStmt]
      exact .refuse _ _
  | augAssign sp target op v =>
    intro allow
    rw [Lower.lowerStmt]
    exact lowerAugAssign_walks env _ target op v
  | functionDef sp f ps b ds ih =>
    intro allow
    rw [Lower.lowerStmt]
    exact lowerFunction_walks (lowerBlock_walks_of fun st hst => ih st hst false) env _ f ps ds allow
  | returnValue sp v =>
    intro allow
    rw [Lower.lowerStmt]
    exact lowerReturn_walks env _ v
  | ifElse sp c b o ihb iho =>
    intro allow
    have hb := lowerBlock_walks_of fun st hst => ihb st hst false
    have ho := lowerBlock_walks_of fun st hst => iho st hst false
    rw [Lower.lowerStmt]
    exact (lowerExpr_walks env c).bind fun test => (lowerBranch_walks "then" hb).bind fun T =>
      (lowerBranch_walks "else" ho).bind fun F => mergeBranches_walks env _ test T F
  | whileLoop sp c b o ih =>
    intro allow
    have hb := lowerBlock_walks_of fun st hst => ih st hst false
    simp only [Lower.lowerStmt]
    split
    · exact .refuse _ _
    · exact lowerLoop_walks (lowerExpr_walks env c) hb env _
  | foreign st hf =>
    intro allow
    cases st <;> simp [Stmt.isForeign] at hf <;> rw [Lower.lowerStmt] <;> exact .refuse _ _

end Trees

end Hoist.Lowering
