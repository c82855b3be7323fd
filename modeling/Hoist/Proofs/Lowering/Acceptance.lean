import Hoist.Proofs.Lowering.Trees

/-!
# Which trees are lowered

An expression is lowered when it is supported, and a statement when the check of its tree accepts it:
whether lowering succeeds depends on the state only through the names that are declared and the
prohibition of returns.
-/

namespace Hoist.Lowering

open Hoist.Flat (Symbol Node Location Space Table Lambda)
open Hoist.Surface (Expr Stmt Operator Params Module allReads optReads blockReads blockAssigns
  blockReturns blockDeclares allSupported optSupported blockAccepts blockEnds sameNames)

section Expressions

variable {s : State} {env : Env}

theorem refuseStarred_succeeds {es : List Expr} (h : allSupported es = true) :
    ∀ sp v, Expr.starred sp v ∉ es := by
  induction es with
  | nil => simp
  | cons e es ih =>
    simp only [allSupported, Bool.and_eq_true] at h
    intro sp v hm
    rcases List.mem_cons.1 hm with rfl | hm
    · simp [Expr.isSupported] at h
    · exact ih h.2 sp v hm

theorem lowerExprs_succeeds (hx : env.expansions = []) {es : List Expr}
    (ih : ∀ e ∈ es, ∀ {s}, Valid s → (Succeeds (Lower.lowerExpr env e) s ↔ e.isSupported = true))
    (hs : Valid s) : Succeeds (Lower.lowerExprs env es) s ↔ allSupported es = true := by
  induction es generalizing s with
  | nil => simp [Lower.lowerExprs, allSupported]
  | cons e es ihs =>
    rw [Lower.lowerExprs, Succeeds.bind_iff (P := allSupported es = true), ih e (by simp) hs]
    · simp [allSupported]
    · intro n t hn
      have ht := (lowerExpr_reads hx e hs hn).valid
      rw [Succeeds.bind_iff (P := True), ihs (fun e' he' => ih e' (List.mem_cons_of_mem _ he')) ht]
      · simp
      · simp

theorem lowerOption_succeeds {o : Option Expr} {v : Literal}
    (ih : ∀ e ∈ o, ∀ {s}, Valid s → (Succeeds (Lower.lowerExpr env e) s ↔ e.isSupported = true))
    (hs : Valid s) : Succeeds (Lower.lowerOption env o v) s ↔ optSupported o = true := by
  cases o with
  | none => simp [Lower.lowerOption, Lower.missing, optSupported]
  | some e => exact ih e rfl hs

theorem operatorNode_succeeds {op : Operator} {loc : Option Location} :
    Succeeds (Lower.operatorNode op loc) s ↔ op.isSupported = true := by
  unfold Operator.isSupported Succeeds
  simp only [operatorNode_iff]
  cases op.builtin? <;> simp

theorem lowerExpr_succeeds (hx : env.expansions = []) (e : Expr) :
    ∀ {s}, Valid s → (Succeeds (Lower.lowerExpr env e) s ↔ e.isSupported = true) := by
  induction e using Expr.ind with
  | name sp x =>
    intro s hs
    obtain ⟨n, t, h, -⟩ := readName_ok hs x (env.locate (Expr.name sp x).span)
    simp only [Lower.lowerExpr, Expr.isSupported, iff_true]
    exact ⟨n, t, h⟩
  | constant sp v =>
    intro s hs
    simp [Lower.lowerExpr, Expr.isSupported]
  | binary sp op l r ihl ihr =>
    intro s hs
    simp only [Lower.lowerExpr]
    rw [Succeeds.bind_iff (P := l.isSupported = true ∧ r.isSupported = true ∧ True),
      operatorNode_succeeds]
    · simp [Expr.isSupported, and_assoc]
    · intro f t hf
      obtain ⟨_, -, -, rfl⟩ := operatorNode_iff.1 hf
      rw [Succeeds.bind_iff (P := r.isSupported = true ∧ True), ihl hs]
      intro n u hn
      rw [Succeeds.bind_iff (P := True), ihr (lowerExpr_reads hx l hs hn).valid]
      simp
  | unary sp op x ih =>
    intro s hs
    simp only [Lower.lowerExpr]
    rw [Succeeds.bind_iff (P := x.isSupported = true ∧ True), operatorNode_succeeds]
    · simp [Expr.isSupported]
    · intro f t hf
      obtain ⟨_, -, -, rfl⟩ := operatorNode_iff.1 hf
      rw [Succeeds.bind_iff (P := True), ih hs]
      simp
  | compare sp l op r ihl ihr =>
    intro s hs
    simp only [Lower.lowerExpr]
    rw [Succeeds.bind_iff (P := l.isSupported = true ∧ r.isSupported = true ∧ True),
      operatorNode_succeeds]
    · simp [Expr.isSupported, and_assoc]
    · intro f t hf
      obtain ⟨_, -, -, rfl⟩ := operatorNode_iff.1 hf
      rw [Succeeds.bind_iff (P := r.isSupported = true ∧ True), ihl hs]
      intro n u hn
      rw [Succeeds.bind_iff (P := True), ihr (lowerExpr_reads hx l hs hn).valid]
      simp
  | chain sp l rest hlen =>
    intro s hs
    rcases rest with - | ⟨⟨op, r⟩, - | ⟨_, _⟩⟩
    · simp [Lower.lowerExpr, Expr.isSupported]
    · simp at hlen
    · simp [Lower.lowerExpr, Expr.isSupported]
  | call sp f args ks ihf ihargs =>
    intro s hs
    simp only [Lower.lowerExpr, expansionOf?_eq_none hx]
    cases ks with
    | cons k ks =>
      simp only [List.isEmpty_cons, Bool.not_false, if_true, Expr.isSupported, Bool.false_and,
        Bool.false_eq_true, iff_false]
      rintro ⟨n, t, h⟩
      simp at h
    | nil =>
      simp only [List.isEmpty_nil, Bool.not_true, Bool.false_eq_true, if_false, Expr.isSupported,
        Bool.true_and, Bool.and_eq_true]
      constructor
      · rintro ⟨n, t, h⟩
        simp only [Yields.bind_iff, refuseStarred_iff] at h
        obtain ⟨_, _, ⟨-, rfl⟩, ns, u, hns, m, v, hm, -⟩ := h
        have hu := (lowerExprs_reads (fun e _ => lowerExpr_reads hx e) hs hns).valid
        exact ⟨(lowerExprs_succeeds hx ihargs hs).1 ⟨ns, u, hns⟩, (ihf hu).1 ⟨m, v, hm⟩⟩
      · rintro ⟨hargs, hf⟩
        obtain ⟨ns, u, hns⟩ := (lowerExprs_succeeds hx ihargs hs).2 hargs
        have hu := (lowerExprs_reads (fun e _ => lowerExpr_reads hx e) hs hns).valid
        obtain ⟨m, v, hm⟩ := (ihf hu).2 hf
        refine ⟨.apply (env.locate (Expr.call sp f args []).span) m ns false, v, ?_⟩
        simp only [Yields.bind_iff, refuseStarred_iff, Yields.pure_iff]
        exact ⟨⟨⟩, s, ⟨refuseStarred_succeeds hargs, rfl⟩, ns, u, hns, m, v, hm, rfl, rfl⟩
  | attr sp v name ih =>
    intro s hs
    simp only [Lower.lowerExpr]
    rw [Succeeds.bind_iff (P := True), ih hs]
    · simp [Expr.isSupported]
    · simp
  | subscript sp v i ihv ihi =>
    intro s hs
    simp only [Lower.lowerExpr]
    rw [Succeeds.bind_iff (P := i.isSupported = true ∧ True), ihv hs]
    · simp [Expr.isSupported]
    · intro n u hn
      rw [Succeeds.bind_iff (P := True), ihi (lowerExpr_reads hx v hs hn).valid]
      simp
  | slice sp a b c iha ihb ihc =>
    intro s hs
    have hreads := fun (o : Option Expr) (v : Literal) {s n t} (hs : Valid s) h =>
      lowerOption_reads (o := o) (v := v) (s := s) (n := n) (t := t)
        (fun e _ => lowerExpr_reads hx e) hs h
    rw [lowerExpr_slice, Succeeds.bind_iff
      (P := optSupported b = true ∧ optSupported c = true ∧ True), lowerOption_succeeds iha hs]
    · simp [Expr.isSupported, and_assoc]
    · intro n u hn
      have hu := (hreads a _ hs hn).valid
      rw [Succeeds.bind_iff (P := optSupported c = true ∧ True), lowerOption_succeeds ihb hu]
      intro m v hm
      rw [Succeeds.bind_iff (P := True), lowerOption_succeeds ihc (hreads b _ hu hm).valid]
      simp
  | extSlice sp es ih =>
    intro s hs
    simp only [Lower.lowerExpr]
    rw [Succeeds.bind_iff (P := True), lowerExprs_succeeds hx ih hs]
    · simp [Expr.isSupported]
    · simp
  | tuple sp es ih =>
    intro s hs
    simp only [Lower.lowerExpr]
    rw [Succeeds.bind_iff (P := True), lowerExprs_succeeds hx ih hs]
    · simp [Expr.isSupported]
    · simp
  | lambda sp ps b ih =>
    intro s hs
    simp only [Lower.lowerExpr, Expr.isSupported, Bool.and_eq_true]
    rw [Succeeds.bind_iff (P := b.isSupported = true)]
    · simp [Succeeds, requirePositional_iff]
    · intro _ t h
      obtain ⟨-, rfl⟩ := requirePositional_iff.1 h
      have hi := issued_reads hs
      obtain ⟨v, hv, hiff⟩ := lowerClosure_ok hi.valid
        (Reserved.issue hs (Flat.fresh s.issued "lambda" .global_) rfl) env ps
        (Lower.lowerExpr env b) (env.locate (Expr.lambda sp ps b).span) none (lowerExpr_acts hx b)
      rw [← ih hv.valid]
      unfold Succeeds
      rw [← hiff]
      simp only [lowerClosure_fresh_iff, Option.getD_none]
  | foreign e hf =>
    intro s hs
    cases e <;> simp [Expr.isForeign] at hf <;> simp [Lower.lowerExpr, Expr.isSupported]

end Expressions

section Ends

variable {s t : State} {env : Env} {loc : Option Location} {items : List Item}

theorem endsPlain_append {is js : List Item} (h : js ≠ []) : endsPlain (is ++ js) = endsPlain js := by
  unfold endsPlain
  rw [List.getLast?_append_of_ne_nil _ h]

theorem assignItems_endsPlain {tuple : Symbol} {i : Nat} {xs : List String} (j : Item)
    (hj : j.isPlain = false) (h : Yields (Lower.assignItems tuple loc i xs) s items t) :
    endsPlain (j :: items) = false := by
  induction xs generalizing s i items j with
  | nil =>
    obtain ⟨rfl, -⟩ := Yields.pure_iff.1 h
    simpa [endsPlain] using hj
  | cons x xs ih =>
    simp only [Lower.assignItems, Yields.bind_iff, Yields.pure_iff] at h
    obtain ⟨item, u, hx, is, v, hxs, rfl, rfl⟩ := h
    obtain ⟨a, sc, -, -, rfl, -⟩ := assign_iff.1 hx
    have := ih (.assign ⟨a, Lower.projection tuple i loc, loc⟩) rfl hxs
    unfold endsPlain at this ⊢
    rwa [List.getLast?_cons_cons]

theorem assignAll_endsPlain {xs : List String} {value : Node}
    (h : Yields (Lower.assignAll xs value loc) s items t) : items ≠ [] ∧ endsPlain items = false := by
  simp only [Lower.assignAll, Yields.bind_iff, Yields.issue_iff, Yields.pure_iff] at h
  obtain ⟨_, _, ⟨rfl, rfl⟩, is, _, h, rfl, rfl⟩ := h
  exact ⟨by simp, assignItems_endsPlain (.assign _) rfl h⟩

theorem bindResults_endsPlain {returns : Bool} {names : List String} {app : Node}
    (h : Yields (Lower.bindResults returns names app loc) s items t) :
    items ≠ [] ∧ endsPlain items = returns := by
  cases returns with
  | true =>
    obtain ⟨rfl, -⟩ := Yields.pure_iff.1 h
    exact ⟨by simp, rfl⟩
  | false =>
    simp only [Lower.bindResults, Bool.false_eq_true, if_false] at h
    split at h
    · simp only [Yields.bind_iff, Yields.issue_iff, Yields.pure_iff] at h
      obtain ⟨_, _, -, rfl, -⟩ := h
      exact ⟨by simp, rfl⟩
    · simp only [Yields.bind_iff, Yields.pure_iff] at h
      obtain ⟨_, _, hx, rfl, -⟩ := h
      obtain ⟨a, sc, -, -, rfl, -⟩ := assign_iff.1 hx
      exact ⟨by simp, rfl⟩
    · exact assignAll_endsPlain h

theorem lowerReturn_items {value : Option Expr}
    (h : Yields (Lower.lowerReturn env loc value) s items t) : ∃ n, items = [.plain n] := by
  unfold Lower.lowerReturn at h
  simp only [Yields.bind_iff, Yields.body_iff] at h
  obtain ⟨_, _, ⟨rfl, rfl⟩, h⟩ := h
  split at h
  · simp at h
  · cases value with
    | none =>
      simp only [Yields.bind_iff, Yields.modifyBody_iff, Yields.pure_iff] at h
      obtain ⟨_, _, -, rfl, -⟩ := h
      exact ⟨_, rfl⟩
    | some e =>
      simp only [Yields.bind_iff, Yields.modifyBody_iff, Yields.pure_iff] at h
      obtain ⟨_, _, -, n, _, -, rfl, -⟩ := h
      exact ⟨n, rfl⟩

theorem lowerAssign_items {target value : Expr}
    (h : Yields (Lower.lowerAssign env loc target value) s items t) :
    ∃ a, items = [.assign a] := by
  unfold Lower.lowerAssign at h
  split at h
  · simp only [Yields.bind_iff, Yields.pure_iff] at h
    obtain ⟨v, u, hv, i, w, hi, rfl, -⟩ := h
    obtain ⟨a, sc, -, -, rfl, -⟩ := assign_iff.1 hi
    exact ⟨_, rfl⟩
  · split at h
    · simp only [Yields.bind_iff, Yields.pure_iff] at h
      obtain ⟨v, u, hv, o, u', ho, i, u'', hi, item, w, hw, rfl, -⟩ := h
      obtain ⟨a, sc, -, -, rfl, -⟩ := assign_iff.1 hw
      exact ⟨_, rfl⟩
    · simp at h
  all_goals simp at h

theorem lowerAugAssign_items {target value : Expr} {op : Operator}
    (h : Yields (Lower.lowerAugAssign env loc target op value) s items t) :
    ∃ a, items = [.assign a] := by
  unfold Lower.lowerAugAssign at h
  split at h
  · simp only [Yields.bind_iff, Yields.pure_iff] at h
    obtain ⟨v, u, hv, _, _, -, o, u', ho, a, u'', ha, i, w, hi, rfl, -⟩ := h
    obtain ⟨a, sc, -, -, rfl, -⟩ := assign_iff.1 hi
    exact ⟨_, rfl⟩
  all_goals simp at h

/-- The items of a statement end in a node when the statement leaves a value behind. -/
theorem lowerStmt_endsPlain (hx : env.expansions = []) {st : Stmt} {ad : Bool} (hs : Valid s)
    (htop : s.body.topLevel = false) (h : Yields (Lower.lowerStmt env st ad) s items t) :
    items ≠ [] ∧ endsPlain items = st.isValue := by
  cases st with
  | expr sp v =>
    simp only [Lower.lowerStmt, Yields.bind_iff, Yields.pure_iff] at h
    obtain ⟨n, u, -, rfl, -⟩ := h
    exact ⟨by simp, rfl⟩
  | assign sp ts v =>
    rcases ts with - | ⟨target, - | ⟨_, _⟩⟩
    · simp [Lower.lowerStmt] at h
    · simp only [Lower.lowerStmt] at h
      obtain ⟨a, rfl⟩ := lowerAssign_items h
      exact ⟨by simp, rfl⟩
    · simp [Lower.lowerStmt] at h
  | augAssign sp target op v =>
    simp only [Lower.lowerStmt] at h
    obtain ⟨a, rfl⟩ := lowerAugAssign_items h
    exact ⟨by simp, rfl⟩
  | functionDef sp f ps b ds =>
    simp only [Lower.lowerStmt] at h
    obtain ⟨-, -, a, u, n, -, -, rfl⟩ := (lowerFunction_iff htop).1 h
    exact ⟨by simp, rfl⟩
  | returnValue sp v =>
    simp only [Lower.lowerStmt] at h
    obtain ⟨n, rfl⟩ := lowerReturn_items h
    exact ⟨by simp, rfl⟩
  | ifElse sp c b o =>
    simp only [Lower.lowerStmt, Yields.bind_iff] at h
    obtain ⟨n, s₁, hn, T, s₂, hT, F, s₃, hF, hm⟩ := h
    have h₁ := lowerExpr_reads hx c hs hn
    obtain ⟨-, -, lT⟩ := lowerBranch_reads h₁.valid (lowerBlock_acts hx b) hT
    obtain ⟨-, _, _, _, _, _, _, _, _, -, -, -, -, hend⟩ := mergeBranches_iff.1 hm
    rw [lT.returned] at hend
    exact bindResults_endsPlain hend
  | whileLoop sp c b o =>
    simp only [Lower.lowerStmt] at h
    split at h
    · simp at h
    · obtain ⟨vars, s₁, exits, s₂, initial, s₃, -, -, h₃, h₄⟩ := lowerLoop_iff.1 h
      simp only [Lower.enterLoop, Yields.bind_iff] at h₄
      obtain ⟨_, _, -, _, _, -, _, _, -, _, _, -, _, _, -, _, _, -, _, _, -, _, _, -, hend⟩ := h₄
      exact assignAll_endsPlain hend
  | forLoop | tryExcept | raise | breakLoop | continueLoop | pass | scopeDecl =>
    simp [Lower.lowerStmt] at h

theorem lowerBlock_endsPlain (hx : env.expansions = []) {b : List Stmt} (hs : Valid s)
    (htop : s.body.topLevel = false) (h : Yields (Lower.lowerBlock env b) s items t) :
    endsPlain items = blockEnds b ∧ (items = [] ↔ b = []) := by
  induction b generalizing s items with
  | nil =>
    simp only [Lower.lowerBlock, Yields.pure_iff] at h
    obtain ⟨rfl, -⟩ := h
    exact ⟨rfl, by simp⟩
  | cons x b ih =>
    simp only [Lower.lowerBlock, Yields.bind_iff, Yields.body_iff] at h
    obtain ⟨_, _, ⟨rfl, rfl⟩, h⟩ := h
    split at h
    · simp at h
    · simp only [Yields.bind_iff, Yields.pure_iff] at h
      obtain ⟨is, u, hi, js, v, hb, rfl, rfl⟩ := h
      have e := lowerStmt_acts hx x false hs htop hi
      obtain ⟨hne, hend⟩ := lowerStmt_endsPlain hx hs htop hi
      obtain ⟨hend', hnil⟩ := ih e.valid (e.advances.body.topLevel.trans htop) hb
      refine ⟨?_, by simp [hne]⟩
      cases b with
      | nil => rw [hnil.2 rfl, List.append_nil, hend]; rfl
      | cons y b =>
        rw [endsPlain_append (fun h => by simpa using hnil.1 h), hend', blockEnds, blockEnds,
          List.getLast?_cons_cons]

end Ends

section Statements

variable {s t : State} {env : Env} {err : Option String} {declared : List String}

/-- A state in a function body where some names are declared, and nothing has returned yet. -/
structure Within (err : Option String) (declared : List String) (s : State) : Prop where
  valid : Valid s
  topLevel : s.body.topLevel = false
  returnError : s.body.returnError = err
  hasReturned : s.body.hasReturned = false
  visible : ∀ x, s.visible x = true ↔ x ∈ declared

namespace Within

variable {v : State} {r d a names : List String}

/-- A body that starts inside another one also sees what is declared there. -/
theorem of_starts {err' : Option String} (h : Within err declared s) (hv : Starts names err' s v) :
    Within err' (names ++ declared) v where
  valid := hv.valid
  topLevel := hv.topLevel
  returnError := hv.returnError
  hasReturned := hv.hasReturned
  visible x := by rw [hv.visible, h.visible, List.mem_append]

theorem effect (h : Within err declared s) (e : Effect r d a false s t) :
    Within err (d ++ declared) t where
  valid := e.valid
  topLevel := e.advances.body.topLevel.trans h.topLevel
  returnError := e.advances.body.returnError.trans h.returnError
  hasReturned := by rw [e.returned, h.hasReturned]; rfl
  visible x := by rw [e.visible h.valid, h.visible, List.mem_append, or_comm]

theorem congr (h : Within err declared s) (declared' : List String)
    (hd : ∀ x, x ∈ declared ↔ x ∈ declared') : Within err declared' s :=
  { h with visible := fun x => by rw [h.visible, hd] }

end Within

theorem sameNames_iff {xs ys : List String} :
    sameNames xs ys = true ↔ ∀ x, x ∈ xs ↔ x ∈ ys := by
  simp only [sameNames, Bool.and_eq_true, List.all_eq_true, List.contains_eq_mem, decide_eq_true_eq]
  constructor
  · rintro ⟨h₁, h₂⟩ x
    exact ⟨h₁ x, h₂ x⟩
  · intro h
    exact ⟨fun x hx => (h x).1 hx, fun x hx => (h x).2 hx⟩

theorem assign_succeeds (hs : Valid s) (x : String) (n : Node) (loc : Option Location) :
    Succeeds (do return [← Lower.assign x n loc] : Lower (List Item)) s := by
  obtain ⟨i, t, h⟩ := assign_ok hs x n loc
  exact ⟨[i], t, Yields.bind_iff.2 ⟨i, t, h, Yields.pure_iff.2 ⟨rfl, rfl⟩⟩⟩

theorem lowerAssign_succeeds (hx : env.expansions = []) (hs : Valid s) (target value : Expr)
    (loc : Option Location) : Succeeds (Lower.lowerAssign env loc target value) s ↔
      target.isTarget = true ∧ value.isSupported = true := by
  cases target with
  | name sp x =>
    simp only [Lower.lowerAssign, Expr.isTarget, true_and]
    rw [Succeeds.bind_iff (P := True), lowerExpr_succeeds hx value hs, and_true]
    intro n t hn
    exact iff_true_intro (assign_succeeds (lowerExpr_reads hx value hs hn).valid _ _ _)
  | subscript sp object index =>
    cases object with
    | name sp' x =>
      simp only [Lower.lowerAssign, Expr.isTarget, Expr.name?, Option.isSome_some, Bool.true_and]
      rw [Succeeds.bind_iff (P := index.isSupported = true), lowerExpr_succeeds hx value hs,
        and_comm]
      intro n t hn
      have ht := (lowerExpr_reads hx value hs hn).valid
      rw [Succeeds.bind_iff (P := index.isSupported = true), lowerExpr_succeeds hx _ ht]
      · simp [Expr.isSupported]
      · intro o u ho
        have hu := (lowerExpr_reads hx _ ht ho).valid
        rw [Succeeds.bind_iff (P := True), lowerExpr_succeeds hx _ hu, and_true]
        intro i w hi
        exact iff_true_intro (assign_succeeds (lowerExpr_reads hx _ hu hi).valid _ _ _)
    | _ => simp [Lower.lowerAssign, Expr.isTarget, Expr.name?]
  | _ => simp [Lower.lowerAssign, Expr.isTarget]

theorem lowerAugAssign_succeeds (hx : env.expansions = []) (hs : Within err declared s)
    (target : Expr) (op : Operator) (value : Expr) (loc : Option Location) :
    Succeeds (Lower.lowerAugAssign env loc target op value) s ↔
      target.name?.any declared.contains = true ∧ op.isSupported = true ∧
        value.isSupported = true := by
  cases target with
  | name sp x =>
    simp only [Lower.lowerAugAssign, Expr.name?, Option.any_some]
    rw [Succeeds.bind_iff (P := op.isSupported = true ∧ declared.contains x = true),
      lowerExpr_succeeds hx value hs.valid]
    · tauto
    · intro v t hv
      have ht := hs.effect (lowerExpr_reads hx value hs.valid hv).toEffect
      rw [Succeeds.bind_iff (P := declared.contains x = true), operatorNode_succeeds]
      intro f _ hf
      obtain ⟨_, -, -, rfl⟩ := operatorNode_iff.1 hf
      have hread := readName_ok ht.valid x loc
      rw [Succeeds.bind_iff (P := declared.contains x = true)]
      · obtain ⟨n, u, hn, -⟩ := hread
        exact and_iff_right ⟨n, u, hn⟩
      · intro n u hn
        have hu := ht.effect (readName_reads ht.valid hn).toEffect
        have hvis : (∃ a w, Yields (Lower.current x loc) u a w) ↔ declared.contains x = true := by
          have := hu.visible x
          simp only [List.nil_append] at this
          rw [List.contains_iff_mem, ← this, State.visible, Option.isSome_iff_exists]
          constructor
          · rintro ⟨a, w, h⟩; exact ⟨a, ((current_iff hu.valid).1 h).1⟩
          · rintro ⟨a, h⟩; exact ⟨a, u, (current_iff hu.valid).2 ⟨h, rfl⟩⟩
        rw [Succeeds.bind_iff (P := True), and_true]
        · exact hvis
        · intro a w h
          obtain ⟨-, rfl⟩ := (current_iff hu.valid).1 h
          exact iff_true_intro (assign_succeeds hu.valid _ _ _)
  | _ => simp [Lower.lowerAugAssign, Expr.name?]

theorem lowerReturn_succeeds (hx : env.expansions = []) (hs : Within err declared s)
    (value : Option Expr) (loc : Option Location) :
    Succeeds (Lower.lowerReturn env loc value) s ↔
      err.isNone = true ∧ optSupported value = true := by
  unfold Lower.lowerReturn
  rw [Succeeds.bind_iff (P := err.isNone = true ∧ optSupported value = true)]
  · exact and_iff_right ⟨_, s, Yields.body_iff.2 ⟨rfl, rfl⟩⟩
  · intro b t hb
    obtain ⟨rfl, rfl⟩ := Yields.body_iff.1 hb
    rw [hs.returnError]
    cases err with
    | some why => simp [Succeeds]
    | none =>
      have hr := returning_effect hs.valid true
      simp only [Option.isNone_none, true_and]
      rw [Succeeds.bind_iff (P := optSupported value = true)]
      · exact and_iff_right ⟨⟨⟩, _, Yields.modifyBody_iff.2 rfl⟩
      · intro _ t ht
        obtain rfl := Yields.modifyBody_iff.1 ht
        cases value with
        | none => simp [optSupported]
        | some e =>
          rw [Succeeds.bind_iff (P := True), and_true]
          · exact lowerExpr_succeeds hx e hr.valid
          · simp

/-- An accepted block that returns ends in what returns. -/
theorem blockEnds_of_returns {names : List Stmt → List String} {mayReturn : Bool} {b : List Stmt}
    (h : blockAccepts names mayReturn declared b = true) (hr : blockReturns b = true) :
    blockEnds b = true := by
  induction b generalizing declared with
  | nil => simp [blockReturns] at hr
  | cons x b ih =>
    simp only [blockAccepts, Bool.and_eq_true, Bool.or_eq_true, Bool.not_eq_true',
      List.isEmpty_iff] at h
    obtain ⟨⟨-, hlast⟩, hb⟩ := h
    simp only [blockReturns, Bool.or_eq_true] at hr
    cases b with
    | nil =>
      have hx : x.returns = true := hr.resolve_right (by simp [blockReturns])
      cases x <;> simp_all [blockEnds, Stmt.isValue, Stmt.returns]
    | cons y b =>
      have hx : x.returns = false := hlast.resolve_right (by simp)
      rw [hx] at hr
      rw [blockEnds, List.getLast?_cons_cons]
      exact ih hb (hr.resolve_left (by simp))

/-- What the check of a statement decides: whether it is lowered, wherever the same names are
declared and the same returns allowed. -/
def Decides (env : Env) (st : Stmt) : Prop :=
  ∀ {err declared s}, Within err declared s →
    (Succeeds (Lower.lowerStmt env st false) s ↔
      st.accepts blockAssigns err.isNone declared = true)

theorem lowerBlock_succeeds (hx : env.expansions = []) {b : List Stmt}
    (ih : ∀ st ∈ b, Decides env st) (hs : Within err declared s) :
    Succeeds (Lower.lowerBlock env b) s ↔
      blockAccepts blockAssigns err.isNone declared b = true := by
  induction b generalizing s declared with
  | nil => simp [Lower.lowerBlock, blockAccepts]
  | cons x b ihb =>
    have hrest : ∀ {u}, Valid u → u.body.hasReturned = true →
        (Succeeds (Lower.lowerBlock env b) u ↔ b = []) := by
      intro u hu hr
      cases b with
      | nil => simp [Lower.lowerBlock]
      | cons y b =>
        simp only [Lower.lowerBlock, reduceCtorEq, iff_false]
        rintro ⟨items, t, h⟩
        simp only [Yields.bind_iff, Yields.body_iff] at h
        obtain ⟨_, _, ⟨rfl, rfl⟩, h⟩ := h
        simp [hr] at h
    simp only [Lower.lowerBlock, blockAccepts, Bool.and_eq_true, Bool.or_eq_true,
      Bool.not_eq_true', List.isEmpty_iff, and_assoc]
    rw [Succeeds.bind_iff (P := x.accepts blockAssigns err.isNone declared = true ∧
      (x.returns = false ∨ b = []) ∧
        blockAccepts blockAssigns err.isNone (x.declares ++ declared) b = true)]
    · exact and_iff_right ⟨_, s, Yields.body_iff.2 ⟨rfl, rfl⟩⟩
    · intro body t hb
      obtain ⟨rfl, rfl⟩ := Yields.body_iff.1 hb
      simp only [hs.hasReturned, Bool.false_eq_true, if_false]
      rw [Succeeds.bind_iff (P := (x.returns = false ∨ b = []) ∧
        blockAccepts blockAssigns err.isNone (x.declares ++ declared) b = true),
        ih x (by simp) hs]
      intro items u hu
      have e := lowerStmt_acts hx x false hs.valid hs.topLevel hu
      have hsucc : Succeeds (Lower.lowerBlock env b) u ↔ (x.returns = false ∨ b = []) ∧
          blockAccepts blockAssigns err.isNone (x.declares ++ declared) b = true := by
        cases hr : x.returns with
        | true =>
          have hret : u.body.hasReturned = true := by rw [e.returned, hr, Bool.or_true]
          rw [hrest e.valid hret]
          constructor
          · rintro rfl; exact ⟨.inr rfl, rfl⟩
          · rintro ⟨h, -⟩; exact h.resolve_left (by simp)
        | false =>
          rw [hr] at e
          rw [ihb (fun y hy => ih y (List.mem_cons_of_mem _ hy)) (hs.effect e)]
          simp
      rw [Succeeds.bind_iff (P := True), and_true]
      · exact hsucc
      · simp

theorem functionBody_succeeds (hx : env.expansions = []) {b : List Stmt} (loc : Option Location)
    (ih : ∀ st ∈ b, Decides env st) (hs : Within none declared s) :
    Succeeds (Lower.functionBody (Lower.lowerBlock env b) loc) s ↔
      blockEnds b = true ∧ blockAccepts blockAssigns true declared b = true := by
  have hblock := lowerBlock_succeeds hx ih hs
  rw [Option.isNone_none] at hblock
  rw [← hblock]
  constructor
  · rintro ⟨n, t, h⟩
    obtain ⟨items, hi, hg⟩ := functionBody_iff.1 h
    rw [← (lowerBlock_endsPlain hx hs.valid hs.topLevel hi).1]
    exact ⟨(group_none_iff items loc).1 ⟨n, hg⟩, items, t, hi⟩
  · rintro ⟨hend, items, t, hi⟩
    rw [← (lowerBlock_endsPlain hx hs.valid hs.topLevel hi).1] at hend
    obtain ⟨n, hg⟩ := (group_none_iff items loc).2 hend
    exact ⟨n, t, functionBody_iff.2 ⟨items, hi, hg⟩⟩

theorem lowerFunction_succeeds (hx : env.expansions = []) {b : List Stmt} {f : String}
    {ps : Params Expr} {ds : List Expr} {ad : Bool} {loc : Option Location}
    (ih : ∀ st ∈ b, Decides env st) (hs : Within err declared s) :
    Succeeds (Lower.lowerFunction env loc f ps ds ad (Lower.lowerBlock env b)) s ↔
      ps.isPositional = true ∧ (ad = true ∨ ds = []) ∧ blockEnds b = true ∧
        blockAccepts blockAssigns true (ps.names ++ f :: declared) b = true := by
  have hi := issued_reads hs.valid
  obtain ⟨a, u, hu⟩ := bindFresh_ok hi.valid f
  have eu := bindFresh_effect hi.valid hu
  have hw := (hs.effect hi.toEffect).effect eu
  have hres := (Reserved.issue hs.valid (Flat.fresh s.issued f .global_) rfl).advance
    eu.advances
  have hacts := functionBody_acts loc (lowerBlock_acts hx b)
  obtain ⟨v, hv, hiff⟩ := lowerClosure_ok eu.valid hres env ps
    (Lower.functionBody (Lower.lowerBlock env b) loc) loc (some f) hacts
  have hbody := functionBody_succeeds hx loc ih ((hw.of_starts hv).congr
    (ps.names ++ f :: declared) fun x => by simp [closureNames])
  rw [← hbody]
  constructor
  · rintro ⟨items, t, h⟩
    obtain ⟨hps, hds, a', u', n, hb, hc, -⟩ := (lowerFunction_iff hs.topLevel).1 h
    obtain ⟨rfl, rfl⟩ := hu.unique hb
    exact ⟨hps, hds, hiff.1 ⟨n, t, hc⟩⟩
  · rintro ⟨hps, hds, hb⟩
    obtain ⟨n, t, hc⟩ := hiff.2 hb
    exact ⟨_, t, (lowerFunction_iff hs.topLevel).2 ⟨hps, hds, a, u, n, hu, hc, rfl⟩⟩

/-- A branch is lowered when its statements are accepted. If it returns, its items end in a node. -/
theorem lowerBranch_succeeds (hx : env.expansions = []) {b : List Stmt} {tag : String}
    (ih : ∀ st ∈ b, Decides env st) (hs : Within err declared s) :
    (Succeeds (Lower.lowerBranch tag (Lower.lowerBlock env b)) s ↔
      blockAccepts blockAssigns err.isNone declared b = true) ∧
    ∀ {B t}, Yields (Lower.lowerBranch tag (Lower.lowerBlock env b)) s B t →
      blockReturns b = true → endsPlain B.items = true := by
  obtain ⟨v, hv, hiff⟩ := lowerBranch_starts hs.valid tag (Lower.lowerBlock env b)
  have hw : Within err declared v := hs.of_starts (hs.returnError ▸ hv)
  have hblock := lowerBlock_succeeds hx ih hw
  refine ⟨?_, ?_⟩
  · rw [← hblock]
    constructor
    · rintro ⟨B, t, hB⟩
      obtain ⟨z, hz, -, -⟩ := (hiff B t).1 hB
      exact ⟨_, _, hz⟩
    · rintro ⟨items, z, hz⟩
      exact ⟨⟨items, z.body⟩, _, (hiff _ _).2 ⟨z, hz, rfl, rfl⟩⟩
  · intro B t hB hr
    obtain ⟨z, hz, -, -⟩ := (hiff B t).1 hB
    rw [(lowerBlock_endsPlain hx hw.valid hw.topLevel hz).1]
    exact blockEnds_of_returns (hblock.1 ⟨_, _, hz⟩) hr

theorem lowerIf_succeeds (hx : env.expansions = []) {c : Expr} {b o : List Stmt}
    {loc : Option Location} (ihb : ∀ st ∈ b, Decides env st) (iho : ∀ st ∈ o, Decides env st)
    (hs : Within err declared s) :
    Succeeds (do
      let test ← Lower.lowerExpr env c
      let whenTrue ← Lower.lowerBranch "then" (Lower.lowerBlock env b)
      let whenFalse ← Lower.lowerBranch "else" (Lower.lowerBlock env o)
      Lower.mergeBranches env loc test whenTrue whenFalse) s ↔
      c.isSupported = true ∧ blockAccepts blockAssigns err.isNone declared b = true ∧
        blockAccepts blockAssigns err.isNone declared o = true ∧
        blockReturns o = blockReturns b ∧ ∀ x, x ∈ blockAssigns b ↔ x ∈ blockAssigns o := by
  rw [Succeeds.bind_iff (P := blockAccepts blockAssigns err.isNone declared b = true ∧
    blockAccepts blockAssigns err.isNone declared o = true ∧
    blockReturns o = blockReturns b ∧ ∀ x, x ∈ blockAssigns b ↔ x ∈ blockAssigns o),
    lowerExpr_succeeds hx c hs.valid]
  intro n s₁ hn
  have h₁ : Within err declared s₁ := hs.effect (lowerExpr_reads hx c hs.valid hn).toEffect
  rw [Succeeds.bind_iff (P := blockAccepts blockAssigns err.isNone declared o = true ∧
    blockReturns o = blockReturns b ∧ ∀ x, x ∈ blockAssigns b ↔ x ∈ blockAssigns o),
    (lowerBranch_succeeds hx ihb h₁).1]
  intro T s₂ hT
  obtain ⟨r₂, -, lT⟩ := lowerBranch_reads h₁.valid (lowerBlock_acts hx b) hT
  have h₂ : Within err declared s₂ := h₁.effect r₂.toEffect
  rw [Succeeds.bind_iff (P := blockReturns o = blockReturns b ∧
    ∀ x, x ∈ blockAssigns b ↔ x ∈ blockAssigns o), (lowerBranch_succeeds hx iho h₂).1]
  intro F s₃ hF
  obtain ⟨r₃, hlF, lF⟩ := lowerBranch_reads h₂.valid (lowerBlock_acts hx o) hF
  have hle := lT.reserved.le
  exact mergeBranches_ok r₃.valid (lT.advance h₂.valid r₃.advances) lF (by omega)
    ((lowerBranch_succeeds hx ihb h₁).2 hT) ((lowerBranch_succeeds hx iho h₂).2 hF) env loc n

/-- A statement is lowered when the check of its tree accepts it. -/
theorem lowerStmt_succeeds (hx : env.expansions = []) (st : Stmt) : Decides env st := by
  induction st using Stmt.ind with
  | expr sp v =>
    intro err declared s hs
    simp only [Lower.lowerStmt, Stmt.accepts]
    rw [Succeeds.bind_iff (P := True), lowerExpr_succeeds hx v hs.valid, and_true]
    simp
  | assign sp ts v =>
    intro err declared s hs
    rcases ts with - | ⟨target, - | ⟨_, _⟩⟩
    · simp [Lower.lowerStmt, Stmt.accepts]
    · simp only [Lower.lowerStmt]
      rw [lowerAssign_succeeds hx hs.valid]
      simp [Stmt.accepts]
    · simp [Lower.lowerStmt, Stmt.accepts]
  | augAssign sp target op v =>
    intro err declared s hs
    simp only [Lower.lowerStmt]
    rw [lowerAugAssign_succeeds hx hs]
    simp [Stmt.accepts, and_assoc]
  | functionDef sp f ps b ds ih =>
    intro err declared s hs
    simp only [Lower.lowerStmt]
    rw [lowerFunction_succeeds hx ih hs]
    simp [Stmt.accepts, and_assoc]
  | returnValue sp v =>
    intro err declared s hs
    simp only [Lower.lowerStmt]
    rw [lowerReturn_succeeds hx hs]
    simp [Stmt.accepts]
  | ifElse sp c b o ihb iho =>
    intro err declared s hs
    simp only [Lower.lowerStmt]
    rw [lowerIf_succeeds hx ihb iho hs, ← sameNames_iff, eq_comm (a := blockReturns o)]
    simp [Stmt.accepts, and_assoc]
  | whileLoop sp c b o ih =>
    intro err declared s hs
    simp only [Lower.lowerStmt]
    cases o with
    | cons x o => simp [Stmt.accepts, Succeeds]
    | nil =>
      have hloop := lowerLoop_ok env (env.locate (Stmt.whileLoop sp c b []).span)
        (P := c.isSupported = true ∧ blockAccepts blockAssigns false declared b = true) hs.valid
        (lowerExpr_acts hx c) (lowerBlock_acts hx b) fun {names v} hv hnames => by
          have hw := (hs.of_starts hv).congr declared fun x => by
            have := fun hx => (hs.visible x).1 (hnames x hx)
            simp only [List.mem_append]
            tauto
          have hsucc := Succeeds.bind_iff (x := Lower.lowerExpr env c) (s := v)
            (f := fun _ => Lower.lowerBlock env b)
            (P := blockAccepts blockAssigns false declared b = true) fun n u hn =>
              lowerBlock_succeeds hx ih (hw.effect (lowerExpr_reads hx c hw.valid hn).toEffect)
          rw [lowerExpr_succeeds hx c hw.valid] at hsucc
          rw [← hsucc]
          unfold Succeeds
          simp only [Yields.bind_iff]
          constructor
          · rintro ⟨n, x, items, y, hn, hi⟩; exact ⟨items, y, n, x, hn, hi⟩
          · rintro ⟨items, y, n, x, hn, hi⟩; exact ⟨n, x, items, y, hn, hi⟩
      simp only [List.isEmpty_nil, Bool.not_true, Bool.false_eq_true, if_false]
      refine hloop.trans ?_
      simp [Stmt.accepts, hs.visible]
  | foreign st hf =>
    intro err declared s hs
    cases st <;> simp [Stmt.isForeign] at hf <;> simp [Lower.lowerStmt, Stmt.accepts]

end Statements

end Hoist.Lowering
