import Hoist.Proofs.Lowering.Entry
import Hoist.Proofs.Lowering.Outcomes
import Hoist.Proofs.Surface.PlacedTrees

/-!
# Where lowering refuses

What lowering refuses it refuses with a place of the source. Its other failures, the names defined
twice, the frames that are missing and the operators without a builtin, are out of reach of a tree that
was read from the source: each step is taken in a valid state, in which it succeeds or refuses.
-/

namespace Hoist.Lowering

open Hoist.Flat (Symbol Node Location Source)
open Hoist.Surface (Expr Stmt Operator Params Module)

/-- The location of an offset of a source or of its end. -/
def Inside (source : Source) (loc : Option Location) : Prop :=
  ∃ o ≤ source.text.length, loc = some (source.locate o)

theorem Env.locate_inside {env : Env} {sp : Surface.Span} (h : sp.start ≤ env.source.text.length) :
    Inside env.source (env.locate sp) :=
  ⟨sp.start, h, if_pos h⟩

/-- A failure that shows a place of its source. -/
def Failure.Located (source : Source) (e : Failure) : Prop :=
  ∃ d, e.diagnostic? = some d ∧ Inside source d.loc

/-- Items whose assignments were made at places of a source. -/
def ItemsInside (source : Source) (items : List Item) : Prop :=
  ∀ a, Item.assign a ∈ items → Inside source a.loc

/-- A step that finds what `good` tells, or refuses a place of the source. -/
def Lands {α : Type} (source : Source) (x : Lower α) (s : State) (good : α → Prop) : Prop :=
  Ends x s (fun a _ => good a) fun e _ => e.Located source

namespace Lands

variable {α β : Type} {source : Source} {s t : State} {x : Lower α} {f : α → Lower β}
  {good : α → Prop} {next : β → Prop} {loc : Option Location}

theorem pure {a : α} (h : good a) : Lands source (Pure.pure a) s good := h

theorem bind (hx : Lands source x s good)
    (hf : ∀ a t, Yields x s a t → good a → Lands source (f a) t next) :
    Lands source (x >>= f) s next := Ends.bind hx hf

theorem of_yields {a : α} (h : Yields x s a t) (ha : good a) : Lands source x s good := Ends.ok h ha

theorem of_succeeds (h : Succeeds x s) (hgood : ∀ a t, Yields x s a t → good a) :
    Lands source x s good := by
  obtain ⟨a, t, hx⟩ := h
  exact of_yields hx (hgood a t hx)

/-- A step that is known to succeed. -/
theorem after {a : α} (h : Yields x s a t) (hf : Lands source (f a) t next) :
    Lands source (x >>= f) s next :=
  bind (of_yields h trivial : Lands source x s fun _ => True) fun a' t' h' _ => by
    obtain ⟨rfl, rfl⟩ := h.unique h'
    exact hf

theorem ite {c : Prop} [Decidable c] {y : Lower α} (hx : Lands source x s good)
    (hy : ¬ c → Lands source y s good) : Lands source (if c then x else y) s good :=
  Ends.ite (fun _ => hx) hy

theorem refuse {c : Cause} (h : Inside source loc) :
    Lands source (Lower.refuse c loc : Lower α) s good := ⟨_, rfl, h⟩

/-- What comes behind a refusal is never reached. -/
theorem refused {c : Cause} (h : Inside source loc) :
    Lands source (Lower.refuse c loc >>= f) s next :=
  bind (refuse h : Lands source _ s fun _ => False) fun _ _ _ hfalse => hfalse.elim

theorem within {inner : Body} (h : Lands source x (s.resume inner) good) :
    Lands source (Lower.within inner x) s fun p => good p.1 :=
  Ends.within h

theorem inScratch (h : Lands source x s.scratch good) :
    Lands source (Lower.inScratch x) s good :=
  Ends.inScratch h

end Lands

section Grouping

variable {source : Source} {s : State} {loc : Option Location} {items : List Item}

/-- Items that cannot be grouped end in an assignment, whose place is refused, or there are none. -/
theorem assemble_settles {result : Option Node} {rs : List Run}
    (hitems : ItemsInside source (rs.flatMap Run.items)) (hloc : Inside source loc) :
    Surface.Settles (assemble result loc rs) (Failure.Located source) fun _ => True := by
  induction rs with
  | nil =>
    cases result with
    | none => exact .of_error ⟨_, rfl, hloc⟩
    | some r => exact .of_ok trivial
  | cons r rs ih =>
    have hrest := ih fun a ha => hitems a (by simp [ha])
    cases r with
    | binds a as =>
      unfold assemble
      split
      · refine .of_error ⟨_, rfl, hitems _ ?_⟩
        exact List.mem_append_left _ (List.mem_map_of_mem (List.getLast_mem _))
      · exact hrest.bind fun _ _ => .of_ok trivial
    | nodes n ns =>
      unfold assemble
      split
      · exact .of_ok trivial
      · exact hrest.bind fun _ _ => .of_ok trivial

theorem group_lands {result : Option Node} (hitems : ItemsInside source items)
    (hloc : Inside source loc) :
    Lands source (Lower.ofExcept (group items result loc)) s fun _ => True :=
  Ends.ofExcept (fun _ _ => trivial)
    (assemble_settles (by rwa [runs_items]) hloc).error

end Grouping

section Names

variable {source : Source} {s : State} {loc : Option Location} {x : String}

theorem currentIn_lands {frame : Nat} (hlt : frame < s.scopes.size) (hloc : Inside source loc) :
    Lands source (Lower.currentIn frame x loc) s fun _ => True := by
  refine Ends.getThen (Ends.ofExceptThen (fun _ _ => trivial) fun e he => ?_)
  unfold Scopes.lookup at he
  rw [Scopes.find_eq _ hlt] at he
  cases hsearch : s.scopes.search x false frame with
  | some r =>
    rw [hsearch] at he
    cases he
  | none =>
    rw [hsearch] at he
    cases he
    exact ⟨_, rfl, hloc⟩

theorem current_lands (hs : Valid s) (hloc : Inside source loc) :
    Lands source (Lower.current x loc) s fun _ => True :=
  Ends.bodyThen (currentIn_lands hs.frame_lt hloc)

theorem currents_lands (hs : Valid s) (hloc : Inside source loc) : ∀ xs,
    Lands source (Lower.currents loc xs) s fun _ => True
  | [] => .pure trivial
  | x :: xs => (current_lands hs hloc).bind fun _ _ h _ => by
    obtain ⟨-, rfl⟩ := (current_iff hs).1 h
    exact (currents_lands hs hloc xs).bind fun _ _ _ _ => .pure trivial

theorem assign_lands (hs : Valid s) (value : Node) (hloc : Inside source loc) :
    Lands source (do return [← Lower.assign x value loc]) s (ItemsInside source) := by
  obtain ⟨i, t, h⟩ := assign_ok hs x value loc
  refine .after h (.pure fun a ha => ?_)
  obtain ⟨b, sc, rfl, -, rfl, -⟩ := assign_iff.1 h
  cases List.mem_singleton.1 ha
  exact hloc

theorem assignItems_inside {tuple : Symbol} {xs : List String} {i : Nat} {items : List Item}
    {t : State} (hloc : Inside source loc) (h : Yields (Lower.assignItems tuple loc i xs) s items t) :
    ItemsInside source items := by
  induction xs generalizing s i items t with
  | nil =>
    obtain ⟨rfl, -⟩ := Yields.pure_iff.1 h
    exact fun a ha => by cases ha
  | cons x xs ih =>
    simp only [Lower.assignItems, Yields.bind_iff, Yields.pure_iff] at h
    obtain ⟨_, u, hx, _, v, hxs, rfl, -⟩ := h
    obtain ⟨b, sc, rfl, -, rfl, -⟩ := assign_iff.1 hx
    intro a ha
    rcases List.mem_cons.1 ha with ha | ha
    · cases ha
      exact hloc
    · exact ih hxs a ha

theorem assignAll_lands (hs : Valid s) (xs : List String) (value : Node) (hloc : Inside source loc) :
    Lands source (Lower.assignAll xs value loc) s (ItemsInside source) := by
  refine .of_succeeds (assignAll_ok hs xs value loc) fun items t h => ?_
  simp only [Lower.assignAll, Yields.bind_iff, Yields.issue_iff, Yields.pure_iff] at h
  obtain ⟨_, _, ⟨rfl, rfl⟩, is, _, h, rfl, -⟩ := h
  intro a ha
  rcases List.mem_cons.1 ha with ha | ha
  · cases ha
    exact hloc
  · exact assignItems_inside hloc h a ha

end Names

section Expressions

variable {env : Env} {s : State} {loc : Option Location}

theorem requirePositional_lands (ps : Params Expr) (hloc : Inside env.source loc) :
    Lands env.source (Lower.requirePositional ps loc) s fun _ => True :=
  .ite (.refused hloc) fun _ => .ite (.refused hloc) fun _ => .ite (.refuse hloc) fun _ => .pure trivial

theorem refuseStarred_lands : ∀ {es : List Expr}, (∀ e ∈ es, e.Placed env.source.text.length) →
    Lands env.source (Lower.refuseStarred env es) s fun _ => True
  | [], _ => .pure trivial
  | e :: es, h => by
    have hrest := refuseStarred_lands (List.forall_mem_cons.1 h).2
    have he := env.locate_inside (List.forall_mem_cons.1 h).1.inside
    cases e
    case starred => exact .refuse he
    all_goals exact hrest

theorem operatorNode_lands {op : Operator} (h : op.isSupported = true) :
    Lands env.source (Lower.operatorNode op loc) s fun _ => True :=
  .of_succeeds (operatorNode_succeeds.2 h) fun _ _ _ => trivial

/-- A closure refuses what its body refuses: to lift the body behind it succeeds. -/
theorem lowerClosure_lands_of (hs : Valid s) {ref : Symbol} (hr : ref.token ≤ s.issued)
    {params : Params Expr} {code : Lower Node} {name : Option String}
    (hcode : ∀ {v}, Valid v → v.body.topLevel = false → Lands env.source code v fun _ => True)
    (hlift : ∀ {u formals v c w}, Opens (ownName name ref) ref true none s u →
      Yields (Lower.bindFreshAll params.names) u formals v → Yields code v c w →
      Succeeds (Lower.lift env w.body formals c loc) (w.resume s.body)) :
    Lands env.source (Lower.lowerClosure env params code loc name (some ref)) s fun _ => True := by
  obtain ⟨u, ho, hc⟩ := closureBody_opens hs ref hr name none
  have hu : (u.resume s.body).resume
      { { u.body with returnError := s.body.returnError } with returnError := none } = u := by
    simp only [State.resume, ho.body]
    rw [← ho.body]
  obtain ⟨formals, v, hf⟩ := bindFreshAll_ok (ho.valid hs) params.names
  have hv := bindFreshAll_effect (ho.valid hs) hf
  have htop : v.body.topLevel = false := by rw [hv.advances.body.topLevel, ho.body]
  have hinside : Lands env.source (do
      let formals ← Lower.bindFreshAll (params.positional.map (·.name))
      return (formals, ← code)) u fun _ => True :=
    .after hf ((hcode hv.valid htop).bind fun _ _ _ _ => .pure trivial)
  refine .after hc (.bind (.within (by rw [hu]; exact hinside)) fun p t hp _ => ?_)
  obtain ⟨⟨formals', c⟩, child⟩ := p
  obtain ⟨w, hw, rfl, rfl⟩ := within_iff.1 hp
  rw [hu] at hw
  simp only [Yields.bind_iff, Yields.pure_iff, Prod.mk.injEq] at hw
  obtain ⟨_, _, hf', _, _, hc', ⟨rfl, rfl⟩, rfl⟩ := hw
  exact .of_succeeds (hlift ho hf' hc') fun _ _ _ => trivial

theorem lowerClosure_lands (hs : Valid s) {ref : Symbol} (hr : Reserved ref s)
    {params : Params Expr} {code : Lower Node} {name : Option String} {r d a : List String} {b : Bool}
    (hacts : Acts r d a b code)
    (hcode : ∀ {v}, Valid v → v.body.topLevel = false → Lands env.source code v fun _ => True) :
    Lands env.source (Lower.lowerClosure env params code loc name (some ref)) s fun _ => True := by
  refine lowerClosure_lands_of hs hr.le hcode fun {u formals v c w} ho hf hc => ?_
  have hv := bindFreshAll_effect (ho.valid hs) hf
  have htop : v.body.topLevel = false := by rw [hv.advances.body.topLevel, ho.body]
  have hw := hacts hv.valid htop hc
  have hadv := hv.advances.trans hw.advances
  have hback := ho.back hs hw.valid hadv
  have hdest : w.body.dest = ref := by rw [hadv.body.dest, ho.body]
  exact lift_ok hback.valid (hdest ▸ hr.advance hback.advances) env formals c loc

theorem lowerClosure_fresh_eq {params : Params Expr} {code : Lower Node} {name : Option String} :
    Lower.lowerClosure env params code loc name none s =
      Lower.lowerClosure env params code loc name
        (some (Flat.fresh s.issued (name.getD "lambda") .global_)) s.issuing := rfl

theorem lowerLambda_lands (hs : Valid s) {params : Params Expr} {code : Lower Node}
    {r d a : List String} {b : Bool} (hacts : Acts r d a b code)
    (hcode : ∀ {v}, Valid v → v.body.topLevel = false → Lands env.source code v fun _ => True) :
    Lands env.source (Lower.lowerClosure env params code loc none none) s fun _ => True := by
  unfold Lands Ends
  rw [lowerClosure_fresh_eq]
  exact lowerClosure_lands (issued_reads hs).valid (Reserved.issue hs _ rfl) hacts hcode

theorem lowerExprs_lands (hx : env.expansions = []) {es : List Expr}
    (ih : ∀ e ∈ es, ∀ {s}, Valid s → Lands env.source (Lower.lowerExpr env e) s fun _ => True)
    (hs : Valid s) : Lands env.source (Lower.lowerExprs env es) s fun _ => True := by
  induction es generalizing s with
  | nil => exact .pure trivial
  | cons e es ihs =>
    rw [Lower.lowerExprs]
    refine (ih e (by simp) hs).bind fun n t hn _ => ?_
    have ht := (lowerExpr_reads hx e hs hn).valid
    exact (ihs (fun e' he' => ih e' (List.mem_cons_of_mem _ he')) ht).bind fun _ _ _ _ => .pure trivial

theorem lowerOption_lands {o : Option Expr} {v : Literal}
    (ih : ∀ e ∈ o, ∀ {s}, Valid s → Lands env.source (Lower.lowerExpr env e) s fun _ => True)
    (hs : Valid s) : Lands env.source (Lower.lowerOption env o v) s fun _ => True := by
  cases o with
  | none => exact .pure trivial
  | some e => exact ih e rfl hs

/-- An expression is lowered, or a place in it is refused. -/
theorem lowerExpr_lands (hx : env.expansions = []) {e : Expr}
    (he : e.Placed env.source.text.length) :
    ∀ {s}, Valid s → Lands env.source (Lower.lowerExpr env e) s fun _ => True := by
  induction he with
  | name inside =>
    intro s hs
    rw [Lower.lowerExpr]
    obtain ⟨n, t, h, -⟩ := readName_ok hs _ _
    exact .of_yields h trivial
  | constant inside =>
    intro s hs
    rw [Lower.lowerExpr]
    exact .pure trivial
  | @binary sp op l r inside known left right ihl ihr =>
    intro s hs
    rw [Lower.lowerExpr]
    refine (operatorNode_lands known).bind fun _ _ hf _ => ?_
    obtain ⟨_, -, -, rfl⟩ := operatorNode_iff.1 hf
    refine (ihl hs).bind fun _ _ hl _ => ?_
    exact (ihr (lowerExpr_reads hx l hs hl).valid).bind fun _ _ _ _ => .pure trivial
  | unary inside known operand ih =>
    intro s hs
    rw [Lower.lowerExpr]
    refine (operatorNode_lands known).bind fun _ _ hf _ => ?_
    obtain ⟨_, -, -, rfl⟩ := operatorNode_iff.1 hf
    exact (ih hs).bind fun _ _ _ _ => .pure trivial
  | @compare sp l rest inside left known others ihl ihr =>
    intro s hs
    rcases rest with - | ⟨⟨op, r⟩, - | ⟨_, _⟩⟩
    · simp only [Lower.lowerExpr]
      exact .refuse (env.locate_inside inside)
    · rw [Lower.lowerExpr]
      refine (operatorNode_lands (known (op, r) (by simp))).bind fun _ _ hf _ => ?_
      obtain ⟨_, -, -, rfl⟩ := operatorNode_iff.1 hf
      refine (ihl hs).bind fun _ _ hl _ => ?_
      exact (ihr (op, r) (by simp) (lowerExpr_reads hx l hs hl).valid).bind fun _ _ _ _ => .pure trivial
    · simp only [Lower.lowerExpr]
      exact .refuse (env.locate_inside inside)
  | @call sp f args ks inside callee arguments ihf ihargs =>
    intro s hs
    rw [Lower.lowerExpr]
    refine .ite (.refused (env.locate_inside inside)) fun _ => ?_
    refine (refuseStarred_lands arguments).bind fun _ _ hr _ => ?_
    obtain ⟨-, rfl⟩ := refuseStarred_iff.1 hr
    refine (lowerExprs_lands hx (fun e he => ihargs e he) hs).bind fun _ _ ha _ => ?_
    have ht := (lowerExprs_reads (fun e _ => fun hs h => lowerExpr_reads hx e hs h) hs ha).valid
    rw [expansionOf?_eq_none hx]
    exact (ihf ht).bind fun _ _ _ _ => .pure trivial
  | attr inside value ih =>
    intro s hs
    rw [Lower.lowerExpr]
    exact (ih hs).bind fun _ _ _ _ => .pure trivial
  | @subscript sp v i inside value index ihv ihi =>
    intro s hs
    rw [Lower.lowerExpr]
    refine (ihv hs).bind fun _ _ hv _ => ?_
    exact (ihi (lowerExpr_reads hx v hs hv).valid).bind fun _ _ _ _ => .pure trivial
  | slice inside lower upper step iha ihb ihc =>
    intro s hs
    rw [lowerExpr_slice]
    have hreads {o : Option Expr} : ∀ e ∈ o, ∀ {s n t}, Valid s → Yields (Lower.lowerExpr env e) s n t →
        Reads e.reads s t := fun e _ _ _ _ hs h => lowerExpr_reads hx e hs h
    refine (lowerOption_lands iha hs).bind fun _ _ ha _ => ?_
    have h₁ := lowerOption_reads hreads hs ha
    refine (lowerOption_lands ihb h₁.valid).bind fun _ _ hb _ => ?_
    have h₂ := lowerOption_reads hreads h₁.valid hb
    exact (lowerOption_lands ihc h₂.valid).bind fun _ _ _ _ => .pure trivial
  | extSlice inside dims ih =>
    intro s hs
    rw [Lower.lowerExpr]
    exact (lowerExprs_lands hx ih hs).bind fun _ _ _ _ => .pure trivial
  | tuple inside elems ih =>
    intro s hs
    rw [Lower.lowerExpr]
    exact (lowerExprs_lands hx ih hs).bind fun _ _ _ _ => .pure trivial
  | @lambda sp ps b inside body ih =>
    intro s hs
    rw [Lower.lowerExpr]
    refine (requirePositional_lands ps (env.locate_inside inside)).bind fun _ _ hp _ => ?_
    obtain ⟨-, rfl⟩ := requirePositional_iff.1 hp
    exact lowerLambda_lands hs (lowerExpr_acts hx b) fun hv _ => ih hv
  | @foreign e inside hf =>
    intro s hs
    have hrefuse : ∀ c, Lands env.source (Lower.refuse c (env.locate e.span) : Lower Node) s
        fun _ => True := fun _ => .refuse (env.locate_inside inside)
    cases e <;> simp [Expr.isForeign] at hf <;> rw [Lower.lowerExpr] <;> exact hrefuse _

end Expressions

section Statements

variable {env : Env} {s : State} {loc : Option Location} {statements : Lower (List Item)}
  {r d a : List String} {b : Bool}

theorem lowerAssign_lands (hx : env.expansions = []) (hs : Valid s) (hloc : Inside env.source loc)
    {target value : Expr} (ht : target.Placed env.source.text.length)
    (hv : value.Placed env.source.text.length) :
    Lands env.source (Lower.lowerAssign env loc target value) s (ItemsInside env.source) := by
  unfold Lower.lowerAssign
  split
  · refine (lowerExpr_lands hx hv hs).bind fun _ _ hn _ => ?_
    exact assign_lands (lowerExpr_reads hx _ hs hn).valid _ hloc
  · split
    · refine (lowerExpr_lands hx hv hs).bind fun _ _ hn _ => ?_
      have h₁ := (lowerExpr_reads hx _ hs hn).valid
      cases ht with
      | foreign _ hf => cases hf
      | subscript _ hobject hindex =>
        refine (lowerExpr_lands hx hobject h₁).bind fun _ _ ho _ => ?_
        have h₂ := (lowerExpr_reads hx _ h₁ ho).valid
        refine (lowerExpr_lands hx hindex h₂).bind fun _ _ hi _ => ?_
        exact assign_lands (lowerExpr_reads hx _ h₂ hi).valid _ hloc
    · exact .refuse hloc
  · exact .refuse hloc
  · exact .refuse hloc
  · exact .refuse hloc

theorem lowerAugAssign_lands (hx : env.expansions = []) (hs : Valid s)
    (hloc : Inside env.source loc) (target : Expr) {op : Operator} {value : Expr}
    (hop : op.isSupported = true) (hv : value.Placed env.source.text.length) :
    Lands env.source (Lower.lowerAugAssign env loc target op value) s (ItemsInside env.source) := by
  unfold Lower.lowerAugAssign
  split
  · refine (lowerExpr_lands hx hv hs).bind fun _ t hn _ => ?_
    have ht := (lowerExpr_reads hx _ hs hn).valid
    refine (operatorNode_lands hop).bind fun _ _ hf _ => ?_
    obtain ⟨_, -, -, rfl⟩ := operatorNode_iff.1 hf
    obtain ⟨_, u, hread, -⟩ := readName_ok ht _ loc
    have hu := (readName_reads ht hread).valid
    refine .after hread ((current_lands hu hloc).bind fun _ _ hc _ => ?_)
    obtain ⟨-, rfl⟩ := (current_iff hu).1 hc
    exact assign_lands hu _ hloc
  · exact .refuse hloc
  · exact .refuse hloc

theorem lowerReturn_lands (hx : env.expansions = []) (hs : Valid s) (hloc : Inside env.source loc)
    {value : Option Expr} (hv : ∀ e ∈ value, e.Placed env.source.text.length) :
    Lands env.source (Lower.lowerReturn env loc value) s (ItemsInside env.source) := by
  have hplain (n : Node) : ItemsInside env.source [.plain n] := fun a ha => by
    cases List.mem_singleton.1 ha
  have hr := (returning_effect hs true).valid
  unfold Lower.lowerReturn
  refine Ends.bodyThen ?_
  cases s.body.returnError with
  | some why => exact Lands.refused hloc
  | none =>
    refine Lands.after (a := ⟨⟩) (Yields.modifyBody_iff.2 rfl) ?_
    cases value with
    | none => exact .pure (hplain _)
    | some e => exact (lowerExpr_lands hx (hv e rfl) hr).bind fun _ _ _ _ => .pure (hplain _)

theorem functionBody_lands (hst : Lands env.source statements s (ItemsInside env.source))
    (hloc : Inside env.source loc) :
    Lands env.source (Lower.functionBody statements loc) s fun _ => True :=
  hst.bind fun _ _ _ hitems => group_lands hitems hloc

theorem lowerFunction_lands (hs : Valid s) (htop : s.body.topLevel = false)
    (hloc : Inside env.source loc) (hacts : Acts r d a b statements)
    (hst : ∀ {v}, Valid v → v.body.topLevel = false →
      Lands env.source statements v (ItemsInside env.source))
    (f : String) (ps : Params Expr) (ds : List Expr) (ad : Bool) :
    Lands env.source (Lower.lowerFunction env loc f ps ds ad statements) s
      (ItemsInside env.source) := by
  unfold Lower.lowerFunction
  refine (requirePositional_lands ps hloc).bind fun _ _ hp _ => ?_
  obtain ⟨-, rfl⟩ := requirePositional_iff.1 hp
  refine .ite (.refused hloc) fun _ => ?_
  refine Ends.bodyThen ?_
  rw [htop]
  have hi := issued_reads hs
  obtain ⟨sym, u, hu⟩ := bindFresh_ok hi.valid f
  have eu := bindFresh_effect hi.valid hu
  have hres := (Reserved.issue hs (Flat.fresh s.issued f .global_) rfl).advance eu.advances
  refine Lands.after (Yields.issue_iff.2 ⟨rfl, rfl⟩) (.after hu ?_)
  refine (lowerClosure_lands eu.valid hres (functionBody_acts loc hacts) fun hv hvt =>
    functionBody_lands (hst hv hvt) hloc).bind fun n _ _ _ => .pure fun a ha => ?_
  cases List.mem_singleton.1 ha
  exact hloc

theorem lowerBranch_lands (hs : Valid s) (tag : String)
    (hst : ∀ {v}, Valid v → v.body.topLevel = false →
      Lands env.source statements v (ItemsInside env.source)) :
    Lands env.source (Lower.lowerBranch tag statements) s
      fun b => ItemsInside env.source b.items := by
  have hi := (issued_reads hs).valid
  obtain ⟨u, ho, hc⟩ := closureBody_opens hi (Flat.derived s.issued s.body.dest tag) (Nat.le_refl _)
    none s.body.returnError
  have hu : (u.resume s.issuing.body).resume
      { u.body with returnError := s.issuing.body.returnError } = u := by
    simp only [State.resume, ho.body]
    rw [show s.issuing.body.returnError = s.body.returnError from rfl, ← ho.body]
  have htop : u.body.topLevel = false := by rw [ho.body]
  unfold Lower.lowerBranch
  refine Ends.bodyThen ?_
  refine Lands.after (Yields.derive_iff.2 ⟨rfl, rfl⟩) (.after hc ?_)
  exact (Lands.within (by rw [hu]; exact hst (ho.valid hi) htop)).bind fun p _ _ hp => .pure hp

theorem bindResults_lands (hs : Valid s) (returns : Bool) (names : List String) (app : Node)
    (hloc : Inside env.source loc) :
    Lands env.source (Lower.bindResults returns names app loc) s (ItemsInside env.source) := by
  unfold Lower.bindResults
  refine .ite (.pure fun a ha => ?_) fun _ => ?_
  · cases List.mem_singleton.1 ha
  split
  · refine .after (Yields.issue_iff.2 ⟨rfl, rfl⟩) (.pure fun a ha => ?_)
    cases List.mem_singleton.1 ha
    exact hloc
  · exact assign_lands hs app hloc
  · exact assignAll_lands hs _ app hloc

theorem branchResult_succeeds {reads assigns : List String} {bT : Bool} {b : Lower.Branch}
    (hb : Lowered reads assigns bT b s) (returns : Bool) {names : List String}
    (hnames : ∀ x ∈ names, x ∈ b.body.assigned) (loc : Option Location) :
    ∃ result, Yields (Lower.branchResult b returns names loc) s result s := by
  cases returns with
  | true => exact ⟨none, (branchResult_iff hb.frame_lt).2 ⟨rfl, rfl⟩⟩
  | false =>
    obtain ⟨result, _, h, -⟩ := branchResult_ok loc names hb hnames
      fun h => absurd h Bool.false_ne_true
    exact ⟨result, h⟩

theorem buildBranch_lands {b : Lower.Branch} {result : Option Node} (hs : Valid s)
    (hr : Reserved b.body.dest s) (hitems : ItemsInside env.source b.items)
    (hloc : Inside env.source loc) :
    Lands env.source (Lower.buildBranch env b result loc) s fun _ => True := by
  refine (group_lands hitems hloc).bind fun _ _ hg _ => ?_
  obtain ⟨-, rfl⟩ := Yields.ofExcept_iff.1 hg
  exact .of_succeeds (lift_ok hs hr env [] _ _) fun _ _ _ => trivial

/-- A conditional over lowered branches is built, unless only one of them returns or they assign
different names. -/
theorem mergeBranches_lands {T F : Lower.Branch} {rT rF aT aF : List String} {bT bF : Bool}
    (hs : Valid s) (hT : Lowered rT aT bT T s) (hF : Lowered rF aF bF F s)
    (hne : T.body.dest.token ≠ F.body.dest.token) (hiT : ItemsInside env.source T.items)
    (hiF : ItemsInside env.source F.items) (hloc : Inside env.source loc) (test : Node) :
    Lands env.source (Lower.mergeBranches env loc test T F) s (ItemsInside env.source) := by
  unfold Lower.mergeBranches
  refine .ite (.refused hloc) fun hret => .ite (.refused hloc) fun hperm => ?_
  simp only [bne_iff_ne, ne_eq, not_not] at hret
  simp only [Bool.not_eq_true', Bool.not_eq_false, List.isPerm_iff] at hperm
  have hre := returning_effect hs bT
  have hT₁ := hT.advance hs hre.advances
  have hF₁ := hF.advance hs hre.advances
  have hrest : Lands env.source (do
      let nT ← Lower.buildBranch env T (← Lower.branchResult T bT T.body.assigned loc) loc
      let nF ← Lower.buildBranch env F (← Lower.branchResult F bT T.body.assigned loc) loc
      Lower.bindResults bT T.body.assigned (branchCall test nT nF loc) loc)
      (s.returning bT) (ItemsInside env.source) := by
    obtain ⟨_, hr⟩ := branchResult_succeeds hT₁ bT (fun _ h => h) loc
    refine .after hr ((buildBranch_lands hre.valid hT₁.reserved hiT hloc).bind fun _ _ hbT _ => ?_)
    obtain ⟨u, l, hu, hl, hres, rfl⟩ := buildBranch_reads hre.valid hT₁ hbT
    have hF₂ := (hF₁.advance hre.valid hu.advances).defining (l := l) env (hl ▸ hne)
    have hv := hu.valid.defining (l := l) env (hl ▸ hres)
    obtain ⟨_, hr'⟩ := branchResult_succeeds hF₂ bT (fun x hx => hperm.mem_iff.1 hx) loc
    refine .after hr' ((buildBranch_lands hv hF₂.reserved hiF hloc).bind fun _ _ hbF _ => ?_)
    obtain ⟨u', l', hu', hl', hres', rfl⟩ := buildBranch_reads hv hF₂ hbF
    exact bindResults_lands (hu'.valid.defining (l := l') env (hl' ▸ hres')) _ _ _ hloc
  rw [hT.returned]
  cases bT with
  | true => exact .after (a := ⟨⟩) (Yields.modifyBody_iff.2 rfl) hrest
  | false => exact hrest

/-- The dry run of a loop refuses what its inside refuses. -/
theorem dryRun_lands (hs : Valid s) {test : Lower Node}
    (htest : ∀ {v}, Valid v → v.body.topLevel = false → Lands env.source test v fun _ => True)
    (ht : Acts r [] [] false test)
    (hst : ∀ {v}, Valid v → v.body.topLevel = false →
      Lands env.source statements v (ItemsInside env.source)) :
    Lands env.source (Lower.dryRun test statements) s fun _ => True := by
  obtain ⟨u, ho, hu⟩ := childBody_fresh_opens hs false (some returnInLoop)
  have htop : u.body.topLevel = false := by rw [ho.body]
  have hv : Valid u.scratch := (ho.valid hs).scratch
  have hinside : Lands env.source (do
      let _ ← test
      let _ ← statements) u.scratch fun _ => True := by
    refine (htest hv htop).bind fun _ w hn _ => ?_
    have hw := ht hv htop hn
    exact (hst hw.valid (hw.advances.body.topLevel.trans htop)).bind fun _ _ _ _ => .pure trivial
  exact .after hu (.bind (.inScratch (.within hinside)) fun _ _ _ _ => .pure trivial)

/-- Inside a loop only test and body are refused. -/
theorem lowerInside_lands {u : State} (hu : Valid u) (htop : u.body.topLevel = false)
    {test : Lower Node} {vars : LoopVariables} {ref : Symbol} (hloc : Inside env.source loc)
    (htest : ∀ {v}, Valid v → v.body.topLevel = false → Lands env.source test v fun _ => True)
    (ht : Acts r [] [] false test) {r' : List String} (hb : Acts r' d a b statements)
    (hst : ∀ {v}, Valid v → v.body.topLevel = false →
      Lands env.source statements v (ItemsInside env.source)) :
    Lands env.source (Lower.lowerInside ref vars test statements loc) u fun _ => True := by
  obtain ⟨_, v, hf⟩ := bindFreshAll_ok hu vars.taken
  have e₁ := bindFreshAll_effect hu hf
  have h₁ : v.body.topLevel = false := by rw [e₁.advances.body.topLevel, htop]
  refine .after hf ((currents_lands e₁.valid hloc vars.given).bind fun _ _ hc _ => ?_)
  obtain ⟨-, rfl⟩ := (currents_iff e₁.valid).1 hc
  refine (htest e₁.valid h₁).bind fun _ w hn _ => ?_
  have e₂ := ht e₁.valid h₁ hn
  have h₂ : w.body.topLevel = false := e₂.advances.body.topLevel.trans h₁
  refine (hst e₂.valid h₂).bind fun _ x hi hitems => ?_
  obtain ⟨_, y, hread⟩ := readNames_ok (hb e₂.valid h₂ hi).valid loc vars.taken
  exact .after hread ((group_lands hitems hloc).bind fun _ _ _ _ => .pure trivial)

/-- A loop is lowered when its inside is and all that it assigns is bound already: it refuses an
assigned name that is not. -/
theorem lowerLoop_lands (hs : Valid s) {test : Lower Node} (hloc : Inside env.source loc)
    (htest : ∀ {v}, Valid v → v.body.topLevel = false → Lands env.source test v fun _ => True)
    (ht : Acts r [] [] false test) {r' : List String} (hb : Acts r' d a b statements)
    (hst : ∀ {v}, Valid v → v.body.topLevel = false →
      Lands env.source statements v (ItemsInside env.source)) :
    Lands env.source (Lower.lowerLoop env loc test statements) s (ItemsInside env.source) := by
  refine (dryRun_lands hs htest ht hst).bind fun vars s₁ hdry _ => ?_
  obtain ⟨h₁, hvars⟩ := dryRun_reads hs ht hb hdry
  refine (currents_lands h₁.valid hloc vars.given).bind fun _ _ hc _ => ?_
  have hg : ∀ x ∈ a, s.visible x = true := by
    rw [← h₁.visible hs]
    intro x hx
    exact currents_visible h₁.valid hc x (by simp [hvars, loopVariables, hx])
  obtain ⟨-, rfl⟩ := (currents_iff h₁.valid).1 hc
  obtain ⟨initial, s₃, hread⟩ := readNames_ok h₁.valid loc vars.taken
  have h₀ := initial_reads hs h₁ hg (hvars ▸ hread)
  refine .after hread ?_
  -- Behind the issue of its two symbols the loop is entered with a frame of its own.
  have hi := (issued_reads (issued_reads h₀.valid).valid).valid
  obtain ⟨u, ho, hu, -⟩ := enterLoop_opens h₀.valid env loc test statements vars initial
  refine Ends.bodyThen (Lands.after (Yields.derive_iff.2 ⟨rfl, rfl⟩) ?_)
  refine Ends.bodyThen (Lands.after (Yields.derive_iff.2 ⟨rfl, rfl⟩) (.after hu ?_))
  have htop : u.body.topLevel = false := by rw [ho.body]
  have hin : Lands env.source (Lower.lowerInside (loopRef s₃) vars test statements loc)
      ((u.resume s₃.body).resume u.body) fun _ => True :=
    lowerInside_lands (ho.valid hi) htop hloc htest ht hb hst
  refine (Lands.within hin).bind fun p t hp _ => ?_
  obtain ⟨w, hw, -, rfl⟩ := within_iff.1 hp
  obtain ⟨hvw, haw, -⟩ := lowerInside_effect hi ho
    (by rw [← h₀.visible hs] at hvars; exact hvars) ht hb hw
  obtain ⟨hd₁, hd₂, hdef⟩ := loop_defined env loc p.1 hs h₀ ho hvw haw
  refine .after (a := ⟨⟩) (define_iff.2 ⟨hd₁, rfl⟩) (.after (a := ⟨⟩) (define_iff.2 ⟨hd₂, rfl⟩) ?_)
  exact assignAll_lands hdef.valid _ _ hloc

theorem lowerBlock_lands_of (hx : env.expansions = []) {ss : List Stmt}
    (hss : ∀ st ∈ ss, st.Placed env.source.text.length)
    (ih : ∀ st ∈ ss, ∀ {s}, Valid s → s.body.topLevel = false → ∀ ad,
      Lands env.source (Lower.lowerStmt env st ad) s (ItemsInside env.source))
    (hs : Valid s) (htop : s.body.topLevel = false) :
    Lands env.source (Lower.lowerBlock env ss) s (ItemsInside env.source) := by
  induction ss generalizing s with
  | nil =>
    rw [Lower.lowerBlock]
    exact .pure fun a ha => by cases ha
  | cons st ss ihs =>
    rw [Lower.lowerBlock]
    refine Ends.bodyThen (Lands.ite (.refused (env.locate_inside (hss st (by simp)).inside)) fun _ => ?_)
    refine (ih st (by simp) hs htop false).bind fun items t hi hitems => ?_
    have e := lowerStmt_acts hx st false hs htop hi
    refine (ihs (fun x hx' => hss x (List.mem_cons_of_mem _ hx'))
      (fun x hx' => ih x (List.mem_cons_of_mem _ hx')) e.valid
      (e.advances.body.topLevel.trans htop)).bind fun _ _ _ hrest => .pure fun a ha => ?_
    exact (List.mem_append.1 ha).elim (hitems a) (hrest a)

/-- A statement inside a function is lowered, or a place in it is refused. -/
theorem lowerStmt_lands (hx : env.expansions = []) {st : Stmt}
    (hst : st.Placed env.source.text.length) : ∀ {s}, Valid s → s.body.topLevel = false → ∀ ad,
      Lands env.source (Lower.lowerStmt env st ad) s (ItemsInside env.source) := by
  induction hst with
  | expr inside value =>
    intro s hs _ ad
    rw [Lower.lowerStmt]
    exact (lowerExpr_lands hx value hs).bind fun _ _ _ _ => .pure fun a ha => by
      cases List.mem_singleton.1 ha
  | @assign sp ts v inside targets value =>
    intro s hs _ ad
    rcases ts with - | ⟨target, - | ⟨_, _⟩⟩
    · simp only [Lower.lowerStmt]
      exact .refuse (env.locate_inside inside)
    · simp only [Lower.lowerStmt]
      exact lowerAssign_lands hx hs (env.locate_inside inside) (targets target (by simp)) value
    · simp only [Lower.lowerStmt]
      exact .refuse (env.locate_inside inside)
  | @augAssign sp target op v inside known target' value =>
    intro s hs _ ad
    rw [Lower.lowerStmt]
    exact lowerAugAssign_lands hx hs (env.locate_inside inside) target known value
  | functionDef inside name body ih =>
    intro s hs htop ad
    rw [Lower.lowerStmt]
    exact lowerFunction_lands hs htop (env.locate_inside inside) (lowerBlock_acts hx _)
      (fun hv hvt => lowerBlock_lands_of hx body ih hv hvt) _ _ _ _
  | returnValue inside value =>
    intro s hs _ ad
    rw [Lower.lowerStmt]
    exact lowerReturn_lands hx hs (env.locate_inside inside) value
  | @ifElse sp c b o inside test body orelse ihb iho =>
    intro s hs _ ad
    rw [Lower.lowerStmt]
    refine (lowerExpr_lands hx test hs).bind fun n s₁ hn _ => ?_
    have h₁ := lowerExpr_reads hx c hs hn
    refine (lowerBranch_lands h₁.valid _ fun hv hvt => lowerBlock_lands_of hx body ihb hv hvt).bind
      fun T s₂ hT hiT => ?_
    obtain ⟨h₂, hlT, lT⟩ := lowerBranch_reads h₁.valid (lowerBlock_acts hx b) hT
    refine (lowerBranch_lands h₂.valid _ fun hv hvt => lowerBlock_lands_of hx orelse iho hv hvt).bind
      fun F s₃ hF hiF => ?_
    obtain ⟨h₃, hlF, lF⟩ := lowerBranch_reads h₂.valid (lowerBlock_acts hx o) hF
    have hle := lT.reserved.le
    exact mergeBranches_lands h₃.valid (lT.advance h₂.valid h₃.advances) lF (by omega) hiT hiF
      (env.locate_inside inside) n
  | @whileLoop sp c b o inside test body ih =>
    intro s hs _ ad
    rw [Lower.lowerStmt]
    refine .ite (.refused (env.locate_inside inside)) fun _ => ?_
    exact lowerLoop_lands hs (env.locate_inside inside) (fun hv _ => lowerExpr_lands hx test hv)
      (lowerExpr_acts hx c) (lowerBlock_acts hx b) fun hv hvt => lowerBlock_lands_of hx body ih hv hvt
  | @foreign st inside hf =>
    intro s hs _ ad
    have hrefuse : ∀ c, Lands env.source (Lower.refuse c (env.locate st.span) : Lower (List Item)) s
        (ItemsInside env.source) := fun _ => .refuse (env.locate_inside inside)
    cases st <;> simp [Stmt.isForeign] at hf <;> rw [Lower.lowerStmt] <;> exact hrefuse _

end Statements

section Entries

variable {env : Env} {s : State}

theorem lowerFunction_root_lands (hx : env.expansions = []) (hs : Root s) {loc : Option Location}
    (hloc : Inside env.source loc) {ss : List Stmt}
    (hss : ∀ st ∈ ss, st.Placed env.source.text.length) (f : String) (ps : Params Expr)
    (ds : List Expr) :
    Lands env.source (Lower.lowerFunction env loc f ps ds true (Lower.lowerBlock env ss)) s
      fun _ => True := by
  unfold Lower.lowerFunction
  refine (requirePositional_lands ps hloc).bind fun _ _ hp _ => ?_
  obtain ⟨-, rfl⟩ := requirePositional_iff.1 hp
  refine .ite (.refused hloc) fun _ => ?_
  refine Ends.bodyThen ?_
  rw [hs.topLevel]
  obtain ⟨sym, u, hu⟩ := bindFresh_ok hs.valid f
  have eu := bindFresh_effect hs.valid hu
  refine Lands.after (Yields.pure_iff.2 ⟨rfl, rfl⟩) (.after hu ?_)
  have href : (Symbol.global f).token ≤ u.issued := Nat.zero_le _
  refine (lowerClosure_lands_of eu.valid href (fun hv hvt => ?_) fun ho hf hc => ?_).bind
    fun _ _ _ _ => .pure trivial
  · exact functionBody_lands (lowerBlock_lands_of hx hss
      (fun st hst _ => lowerStmt_lands hx (hss st hst)) hv hvt) hloc
  · obtain ⟨hfree, hdest, hnew⟩ := hs.captures_nothing hx hu ho hf hc
    exact ⟨_, _, (lift_nil_iff hfree).2 ⟨by rw [hdest]; exact hnew, rfl, rfl⟩⟩

theorem lowerEntry_lands (hx : env.expansions = []) (hs : Root s) {m : Module}
    (hspan : m.span.start ≤ env.source.text.length)
    (hbody : ∀ st ∈ m.body, st.Placed env.source.text.length) :
    Lands env.source (Lower.lowerEntry env m) s fun _ => True := by
  unfold Lower.lowerEntry
  split
  · rename_i st hm
    have hst := hbody st (by simp [hm])
    split
    · rename_i sp f ps ss ds
      rw [Lower.lowerStmt]
      cases hst with
      | foreign _ hf => cases hf
      | functionDef inside _ hss =>
        exact (lowerFunction_root_lands hx hs (env.locate_inside inside) hss f ps ds).bind
          fun _ _ _ _ => .pure trivial
    · exact .refuse (env.locate_inside hst.inside)
  · refine .refuse (env.locate_inside ?_)
    cases hlast : m.body.getLast? with
    | none => exact hspan
    | some st => exact (hbody st (List.mem_of_getLast? hlast)).inside

end Entries

end Hoist.Lowering
