import Hoist.Proofs.Surface.Heeding
import Hoist.Surface.Grammar.Statement

/-!
# Trees with a place in their text

Whatever is read from a text starts inside it or at its end, its operators stand for builtins, and the
name of a function is made of the characters of names. Of the expressions and statements that flat code
has no place for only the start matters: they are refused as a whole.
-/

namespace Hoist.Surface

/-- An expression that starts before an offset or at it, as do all its parts. -/
inductive Expr.Placed (n : Nat) : Expr → Prop
  | name {sp x} (inside : sp.start ≤ n) : Placed n (.name sp x)
  | constant {sp v} (inside : sp.start ≤ n) : Placed n (.constant sp v)
  | binary {sp op l r} (inside : sp.start ≤ n) (known : op.isSupported = true)
      (left : Placed n l) (right : Placed n r) : Placed n (.binary sp op l r)
  | unary {sp op x} (inside : sp.start ≤ n) (known : op.isSupported = true)
      (operand : Placed n x) : Placed n (.unary sp op x)
  | compare {sp l rest} (inside : sp.start ≤ n) (left : Placed n l)
      (known : ∀ p ∈ rest, p.1.isSupported = true) (others : ∀ p ∈ rest, Placed n p.2) :
      Placed n (.compare sp l rest)
  | call {sp f args ks} (inside : sp.start ≤ n) (callee : Placed n f)
      (arguments : ∀ e ∈ args, Placed n e) : Placed n (.call sp f args ks)
  | attr {sp v a} (inside : sp.start ≤ n) (value : Placed n v) : Placed n (.attribute sp v a)
  | subscript {sp v i} (inside : sp.start ≤ n) (value : Placed n v) (index : Placed n i) :
      Placed n (.subscript sp v i)
  | slice {sp a b c} (inside : sp.start ≤ n) (lower : ∀ e ∈ a, Placed n e)
      (upper : ∀ e ∈ b, Placed n e) (step : ∀ e ∈ c, Placed n e) : Placed n (.slice sp a b c)
  | extSlice {sp es} (inside : sp.start ≤ n) (dims : ∀ e ∈ es, Placed n e) :
      Placed n (.extSlice sp es)
  | tuple {sp es} (inside : sp.start ≤ n) (elems : ∀ e ∈ es, Placed n e) : Placed n (.tuple sp es)
  | lambda {sp ps b} (inside : sp.start ≤ n) (body : Placed n b) : Placed n (.lambda sp ps b)
  | foreign {e} (inside : e.span.start ≤ n) (foreign : e.isForeign = true) : Placed n e

theorem Expr.Placed.inside {n : Nat} {e : Expr} (h : e.Placed n) : e.span.start ≤ n := by
  cases h <;> assumption

/-- A statement that starts before an offset or at it, as do all its parts. -/
inductive Stmt.Placed (n : Nat) : Stmt → Prop
  | expr {sp v} (inside : sp.start ≤ n) (value : v.Placed n) : Placed n (.expr sp v)
  | assign {sp ts v} (inside : sp.start ≤ n) (targets : ∀ t ∈ ts, t.Placed n) (value : v.Placed n) :
      Placed n (.assign sp ts v)
  | augAssign {sp t op v} (inside : sp.start ≤ n) (known : op.isSupported = true)
      (target : t.Placed n) (value : v.Placed n) : Placed n (.augAssign sp t op v)
  | functionDef {sp f ps b ds} (inside : sp.start ≤ n)
      (name : ∀ c ∈ f.toList, Text.isIdent c = true) (body : ∀ s ∈ b, Placed n s) :
      Placed n (.functionDef sp f ps b ds)
  | returnValue {sp v} (inside : sp.start ≤ n) (value : ∀ e ∈ v, e.Placed n) :
      Placed n (.returnValue sp v)
  | ifElse {sp c b o} (inside : sp.start ≤ n) (test : c.Placed n) (body : ∀ s ∈ b, Placed n s)
      (orelse : ∀ s ∈ o, Placed n s) : Placed n (.ifElse sp c b o)
  | whileLoop {sp c b o} (inside : sp.start ≤ n) (test : c.Placed n) (body : ∀ s ∈ b, Placed n s) :
      Placed n (.whileLoop sp c b o)
  | foreign {s} (inside : s.span.start ≤ n) (foreign : s.isForeign = true) : Placed n s

theorem Stmt.Placed.inside {n : Nat} {s : Stmt} (h : s.Placed n) : s.span.start ≤ n := by
  cases h <;> assumption

namespace Grammar

/-- The rules that other rules refer to find expressions of the text. -/
structure Places (text : List Char) (g : Grammar) : Prop where
  test : Heeds text g.test (·.Placed text.length)
  orTest : Heeds text g.orTest (·.Placed text.length)
  notTest : Heeds text g.notTest (·.Placed text.length)
  bitOr : Heeds text g.bitOr (·.Placed text.length)
  factor : Heeds text g.factor (·.Placed text.length)
  testList : Heeds text g.testList (·.Placed text.length)

variable {text : List Char} {g : Grammar} {operand : Reader Expr} {close : Kind} {turns : Nat}

theorem binaryOperator_supported {k : Kind} {op : Operator} (h : binaryOperator? k = some op) :
    op.isSupported = true := by
  unfold binaryOperator? at h
  split at h <;> cases h <;> rfl

theorem unaryOperator_supported {k : Kind} {op : Operator} (h : unaryOperator? k = some op) :
    op.isSupported = true := by
  unfold unaryOperator? at h
  split at h <;> cases h <;> rfl

theorem comparison_supported {c : Cursor} {op : Operator} {n : Nat}
    (h : comparison? c = some (op, n)) : op.isSupported = true := by
  unfold comparison? at h
  split at h
  all_goals first
    | cases h
    | split at h <;> cases h
  all_goals rfl

theorem leftFold_heeds {operators : List Operator}
    (hoperand : Heeds text operand (·.Placed text.length)) :
    ∀ turns left, left.Placed text.length →
      Heeds text (leftFold operators operand turns left) (·.Placed text.length)
  | 0, _, hleft => .pure hleft
  | turns + 1, left, hleft => by
    refine .peek fun k => ?_
    split
    · exact .pure hleft
    · rename_i op hop
      refine .ite (.pure hleft) (.pop fun _ _ => hoperand.bind fun right hright => ?_)
      exact leftFold_heeds hoperand turns _
        (.binary hleft.inside (binaryOperator_supported hop) hleft hright)

theorem binaryLevel_heeds (operators : List Operator)
    (hoperand : Heeds text operand (·.Placed text.length)) :
    Heeds text (binaryLevel operators operand) (·.Placed text.length) :=
  hoperand.bind fun left hleft => .remaining fun n => leftFold_heeds hoperand n left hleft

theorem param_heeds : Heeds text param fun _ => True :=
  .expect fun _ _ _ => .pure trivial

theorem defaultValue_heeds (hg : g.Places text) :
    Heeds text (defaultValue? g) fun _ => True :=
  .peek fun _ => .ite (.pure trivial) (.pop fun _ _ => hg.test.bind fun _ _ => .pure trivial)

theorem oneParam_heeds (hg : g.Places text) (ps : Params Expr) (keywordOnly : Bool) :
    Heeds text (oneParam g ps keywordOnly) fun _ => True := by
  refine .peek fun k => ?_
  split
  · refine .pop fun _ _ => ?_
    refine .ite .refused ?_
    refine .peek fun _ => .ite (param_heeds.bind fun _ _ => .pure trivial) (.pure trivial)
  · exact .pop fun _ _ => param_heeds.bind fun _ _ => .pure trivial
  · refine param_heeds.bind fun _ _ => (defaultValue_heeds hg).bind fun _ _ => ?_
    exact .ite (.pure trivial) (.pure trivial)

theorem paramLoop_heeds (hg : g.Places text) (close : Kind) : ∀ turns ps keywordOnly,
    Heeds text (paramLoop g close turns ps keywordOnly) fun _ => True
  | 0, _, _ => .pure trivial
  | turns + 1, ps, keywordOnly => by
    refine .peek fun _ => .ite (.pure trivial) ((oneParam_heeds hg ps keywordOnly).bind fun p _ => ?_)
    refine .peek fun _ => .ite (.pure trivial) (.expect fun _ _ _ => ?_)
    exact .ite (.require (paramLoop_heeds hg close turns _ _)) (paramLoop_heeds hg close turns _ _)

theorem params_heeds (hg : g.Places text) (close : Kind) :
    Heeds text (params g close) fun _ => True :=
  .remaining fun _ => paramLoop_heeds hg close _ _ _

theorem targetLoop_heeds (hg : g.Places text) : ∀ turns,
    Heeds text (targetLoop g turns) fun _ => True
  | 0 => .pure trivial
  | turns + 1 =>
    .peek fun _ => .ite (.pure trivial) (.pop fun _ _ => .peek fun _ => .ite (.pure trivial)
      (hg.bitOr.bind fun _ _ => (targetLoop_heeds hg turns).bind fun _ _ => .pure trivial))

theorem targetList_heeds (hoperand : Heeds text operand fun _ => True) (hg : g.Places text) :
    Heeds text (targetListWith operand g) fun _ => True :=
  .start fun _ _ => hoperand.bind fun _ _ => .peek fun _ => .ite (.pure trivial)
    (.remaining fun n => (targetLoop_heeds hg n).bind fun _ _ => .spanFrom fun _ _ => .pure trivial)

theorem conditionLoop_heeds (hg : g.Places text) : ∀ turns,
    Heeds text (conditionLoop g turns) fun _ => True
  | 0 => .pure trivial
  | turns + 1 =>
    .peek fun _ => .ite (.pure trivial) (.pop fun _ _ => hg.orTest.bind fun _ _ =>
      (conditionLoop_heeds hg turns).bind fun _ _ => .pure trivial)

theorem generatorLoop_heeds (hg : g.Places text) : ∀ turns,
    Heeds text (generatorLoop g turns) fun _ => True
  | 0 => .pure trivial
  | turns + 1 =>
    .peek fun _ => .ite (.pure trivial) (.pop fun _ _ =>
      (targetList_heeds hg.bitOr.any hg).bind fun _ _ => .expect fun _ _ _ =>
        hg.orTest.bind fun _ _ => .remaining fun n => (conditionLoop_heeds hg n).bind fun _ _ =>
          (generatorLoop_heeds hg turns).bind fun _ _ => .pure trivial)

theorem yieldExpr_heeds (hg : g.Places text) :
    Heeds text (yieldExpr g) (·.Placed text.length) := by
  refine .expect fun t ht _ => .peek fun _ => .ite ?_ ?_
  · exact hg.testList.bind fun _ _ => .spanFrom fun _ hs =>
      .pure (.foreign (hs ▸ ht.occurs.le) rfl)
  · exact .spanFrom fun _ hs => .pure (.foreign (hs ▸ ht.occurs.le) rfl)

theorem testOrStar_heeds {test : Reader Expr} (htest : Heeds text test (·.Placed text.length))
    (hg : g.Places text) : Heeds text (testOrStarWith test g) (·.Placed text.length) :=
  .peek fun _ => .ite htest
    (.pop fun _ ht => hg.bitOr.bind fun _ _ => .pure (.foreign ht.occurs.le rfl))

theorem elementLoop_heeds (hg : g.Places text) (close : Kind) : ∀ turns,
    Heeds text (elementLoop g close turns) fun r => ∀ e ∈ r.1, e.Placed text.length
  | 0 => .pure (by simp)
  | turns + 1 => by
    refine .peek fun _ => .ite (.pure (by simp)) ((testOrStar_heeds hg.test hg).bind fun e he => ?_)
    refine .peek fun _ => .ite (.pure (by simpa using he)) (.expect fun _ _ _ => ?_)
    exact (elementLoop_heeds hg close turns).bind fun r hr =>
      .pure (List.forall_mem_cons.2 ⟨he, hr⟩)

theorem elements_heeds (hg : g.Places text) (close : Kind) :
    Heeds text (elements g close) fun r => ∀ e ∈ r.1, e.Placed text.length :=
  .remaining fun _ => elementLoop_heeds hg close _

theorem stringLoop_heeds : ∀ turns, Heeds text (stringLoop turns) fun _ => True
  | 0 => .pure trivial
  | turns + 1 =>
    .taken (.pure trivial) fun _ ht hk => (Heeds.lift (ht.stringValue_settles hk)).bind fun _ _ =>
      (stringLoop_heeds turns).bind fun _ _ => .pure trivial

theorem parenthesised_heeds (hg : g.Places text) :
    Heeds text (parenthesised g) (·.Placed text.length) := by
  refine .pop fun opening hopen => .peek fun _ => .ite ?_ ?_
  · exact (yieldExpr_heeds hg).bind fun _ hy => .expect fun _ _ _ => .pure hy
  · refine (elements_heeds hg _).bind fun r hr => .expect fun _ _ _ => ?_
    split
    · rename_i e he hcomma
      exact .pure (hr e (by simp [he]))
    · exact .pure (.tuple hopen.occurs.le hr)

theorem bracketed_heeds (hg : g.Places text) :
    Heeds text (bracketed g) (·.Placed text.length) := by
  refine .pop fun opening hopen => .peek fun _ => .ite ?_ ?_
  · exact .expect fun _ _ _ => .pure (.foreign hopen.occurs.le rfl)
  refine (testOrStar_heeds hg.test hg).bind fun _ _ => .peek fun _ => .ite ?_ ?_
  · exact .remaining fun n => (generatorLoop_heeds hg n).bind fun _ _ => .expect fun _ _ _ =>
      .pure (.foreign hopen.occurs.le rfl)
  refine .peek fun _ => .ite ?_ ?_
  · exact .expect fun _ _ _ => .pure (.foreign hopen.occurs.le rfl)
  · exact .expect fun _ _ _ => (elements_heeds hg _).bind fun _ _ => .expect fun _ _ _ =>
      .pure (.foreign hopen.occurs.le rfl)

theorem entryLoop_heeds (hg : g.Places text) : ∀ turns,
    Heeds text (entryLoop g turns) fun _ => True
  | 0 => .pure trivial
  | turns + 1 =>
    .peek fun _ => .ite (.pure trivial) (hg.test.bind fun _ _ => .expect fun _ _ _ =>
      hg.test.bind fun _ _ => .peek fun _ => .ite (.pure trivial) (.expect fun _ _ _ =>
        (entryLoop_heeds hg turns).bind fun _ _ => .pure trivial))

theorem braced_heeds (hg : g.Places text) : Heeds text (braced g) (·.Placed text.length) :=
  .pop fun _ hopen => .remaining fun _ => (entryLoop_heeds hg _).bind fun _ _ =>
    .expect fun _ _ _ => .pure (.foreign hopen.occurs.le rfl)

theorem atom_heeds (hg : g.Places text) : Heeds text (atom g) (·.Placed text.length) := by
  refine .next fun t ht => ?_
  have hinside : t.start ≤ text.length := ht.occurs.le
  dsimp only
  split
  · exact .pop fun _ _ => .pure (.name hinside)
  · exact .pop fun _ _ => (Heeds.lift ht.numberValue_settles).bind fun _ _ =>
      .pure (.constant hinside)
  · exact .remaining fun n => (stringLoop_heeds n).bind fun _ _ => .spanFrom fun _ hs =>
      .pure (.constant (hs ▸ hinside))
  · exact .pop fun _ _ => .pure (.constant hinside)
  · exact .pop fun _ _ => .pure (.constant hinside)
  · exact .pop fun _ _ => .pure (.constant hinside)
  · exact parenthesised_heeds hg
  · exact bracketed_heeds hg
  · exact braced_heeds hg
  · exact .unexpected

theorem atMark_heeds (marks : List Mark) : Heeds text (atMark marks) fun _ => True := by
  refine .peek fun _ => ?_
  split
  · exact .pure trivial
  · exact .pure trivial

theorem sliceStep_heeds (hg : g.Places text) :
    Heeds text (sliceStep g) fun o => ∀ e ∈ o, e.Placed text.length := by
  refine .peek fun _ => .ite (.pure (by simp)) (.pop fun _ _ => (atMark_heeds _).bind fun _ _ => ?_)
  exact .ite (.pure (by simp)) (hg.test.bind fun _ he => .pure (by simpa using he))

theorem sliceFrom_heeds (hg : g.Places text) {start : Nat} {lower : Option Expr}
    (hstart : start ≤ text.length) (hlower : ∀ e ∈ lower, e.Placed text.length) :
    Heeds text (sliceFrom g start lower) (·.Placed text.length) := by
  have hsome : Heeds text (some <$> g.test) fun o => ∀ e ∈ o, e.Placed text.length :=
    hg.test.bind fun _ he => .pure (by simpa using he)
  have hrest {upper : Option Expr} (hupper : ∀ e ∈ upper, e.Placed text.length) :
      Heeds text (do
        let step ← sliceStep g
        return Expr.slice (← spanFrom start) lower upper step) (Expr.Placed text.length) :=
    (sliceStep_heeds hg).bind fun _ hstep => .spanFrom fun _ hs =>
      .pure (.slice (hs ▸ hstart) hlower hupper hstep)
  refine .pop fun _ _ => (atMark_heeds _).bind fun _ _ => .ite ?_ ?_
  · exact hrest (by simp)
  · exact hsome.bind fun _ hupper => hrest hupper

theorem subscriptItem_heeds (hg : g.Places text) :
    Heeds text (subscriptItem g) (·.Placed text.length) := by
  refine .start fun _ hstart => .peek fun _ => .ite (sliceFrom_heeds hg hstart (by simp)) ?_
  refine hg.test.bind fun e he => .peek fun _ => .ite (.pure he) ?_
  exact sliceFrom_heeds hg hstart (by simpa using he)

theorem subscriptLoop_heeds (hg : g.Places text) : ∀ turns,
    Heeds text (subscriptLoop g turns) fun r => ∀ e ∈ r.1, e.Placed text.length
  | 0 => .pure (by simp)
  | turns + 1 => by
    refine (subscriptItem_heeds hg).bind fun e he => ?_
    refine .peek fun _ => .ite (.pure (by simpa using he)) (.pop fun _ _ => ?_)
    refine .peek fun _ => .ite (.pure (by simpa using he)) ?_
    exact (subscriptLoop_heeds hg turns).bind fun r hr => .pure (List.forall_mem_cons.2 ⟨he, hr⟩)

theorem subscripts_heeds (hg : g.Places text) :
    Heeds text (subscripts g) (·.Placed text.length) := by
  refine .start fun _ hstart => .remaining fun _ => (subscriptLoop_heeds hg _).bind fun r hr => ?_
  obtain ⟨items, comma⟩ := r
  dsimp only at hr ⊢
  split
  · exact .pure (hr _ (by simp))
  · refine .spanFrom fun _ hs => ?_
    split
    · exact .pure (.extSlice (hs ▸ hstart) hr)
    · exact .pure (.tuple (hs ▸ hstart) hr)

theorem oneArgument_heeds (hg : g.Places text) :
    Heeds text (oneArgument g) fun a => ∀ e, a = .inl e → e.Placed text.length := by
  refine .peek fun _ => .ite ?_ ?_
  · exact .pop fun _ _ => hg.test.bind fun _ _ => .pure (by simp)
  refine .peek fun _ => .peekSecond fun _ => .ite ?_ ?_
  · exact .pop fun _ _ => .pop fun _ _ => hg.test.bind fun _ _ => .pure (by simp)
  · exact (testOrStar_heeds hg.test hg).bind fun e he => .pure (by simpa using he)

theorem argumentLoop_heeds (hg : g.Places text) : ∀ turns,
    Heeds text (argumentLoop g turns) fun as => ∀ e ∈ positionals as, e.Placed text.length
  | 0 => .pure (by simp [positionals])
  | turns + 1 => by
    have hcons {a as} (ha : ∀ e, a = .inl e → e.Placed text.length)
        (has : ∀ e ∈ positionals as, e.Placed text.length) :
        ∀ e ∈ positionals (a :: as), e.Placed text.length := by
      cases a with
      | inl e => exact List.forall_mem_cons.2 ⟨ha e rfl, has⟩
      | inr k => exact has
    refine .peek fun _ => .ite (.pure (by simp [positionals])) ?_
    refine (oneArgument_heeds hg).bind fun a ha => .peek fun _ => .ite ?_ (.expect fun _ _ _ => ?_)
    · exact .pure (hcons ha (by simp [positionals]))
    · exact (argumentLoop_heeds hg turns).bind fun as has => .pure (hcons ha has)

theorem trailerLoop_heeds (hg : g.Places text) : ∀ turns e, e.Placed text.length →
    Heeds text (trailerLoop g turns e) (·.Placed text.length)
  | 0, _, he => .pure he
  | turns + 1, e, he => by
    refine .peek fun _ => ?_
    split
    · exact .pop fun _ _ => .remaining fun _ => (argumentLoop_heeds hg _).bind fun _ has =>
        .expect fun _ _ _ => trailerLoop_heeds hg turns _ (.call he.inside he has)
    · exact .pop fun _ _ => (subscripts_heeds hg).bind fun _ hi => .expect fun _ _ _ =>
        trailerLoop_heeds hg turns _ (.subscript he.inside he hi)
    · exact .pop fun _ _ => .expect fun _ _ _ =>
        trailerLoop_heeds hg turns _ (.attr he.inside he)
    · exact .pure he

theorem atomExpr_heeds (hg : g.Places text) : Heeds text (atomExpr g) (·.Placed text.length) :=
  (atom_heeds hg).bind fun e he => .remaining fun n => trailerLoop_heeds hg n e he

theorem power_heeds (hg : g.Places text) : Heeds text (power g) (·.Placed text.length) :=
  (atomExpr_heeds hg).bind fun _ he => .peek fun _ => .ite (.pure he) (.pop fun _ _ =>
    hg.factor.bind fun _ hx => .pure (.binary he.inside rfl he hx))

theorem factorRule_heeds (hg : g.Places text) :
    Heeds text (factorRule g) (·.Placed text.length) := by
  refine .peek fun _ => ?_
  split
  · exact power_heeds hg
  · rename_i op hop
    exact .pop fun _ ht => hg.factor.bind fun _ hx =>
      .pure (.unary ht.occurs.le (unaryOperator_supported hop) hx)

theorem bitOrRule_heeds (hg : g.Places text) :
    Heeds text (bitOrRule g) (·.Placed text.length) :=
  binaryLevel_heeds _ <| binaryLevel_heeds _ <| binaryLevel_heeds _ <| binaryLevel_heeds _ <|
    binaryLevel_heeds _ <| binaryLevel_heeds _ <| factorRule_heeds hg

theorem comparisonLoop_heeds (hg : g.Places text) : ∀ turns,
    Heeds text (comparisonLoop g turns) fun rest =>
      ∀ p ∈ rest, p.1.isSupported = true ∧ p.2.Placed text.length
  | 0 => .pure (by simp)
  | turns + 1 => by
    refine .cursor fun c => ?_
    split
    · exact .pure (by simp)
    · rename_i op width hop
      have hrest : Heeds text (do
          let e ← g.bitOr
          return (op, e) :: (← comparisonLoop g turns)) fun rest =>
          ∀ p ∈ rest, p.1.isSupported = true ∧ p.2.Placed text.length :=
        hg.bitOr.bind fun e he => (comparisonLoop_heeds hg turns).bind fun rest hrest =>
          .pure (List.forall_mem_cons.2 ⟨⟨comparison_supported hop, he⟩, hrest⟩)
      exact .pop fun _ _ => .ite (.pop fun _ _ => hrest) hrest

theorem comparison_heeds (hg : g.Places text) :
    Heeds text (comparison g) (·.Placed text.length) := by
  refine (bitOrRule_heeds hg).bind fun left hleft => .remaining fun n =>
    (comparisonLoop_heeds hg n).bind fun rest hrest => ?_
  split
  · exact .pure hleft
  · exact .pure (.compare hleft.inside hleft (fun p hp => (hrest p hp).1) fun p hp => (hrest p hp).2)

theorem notRule_heeds (hg : g.Places text) : Heeds text (notRule g) (·.Placed text.length) :=
  .peek fun _ => .ite (comparison_heeds hg) (.pop fun _ ht => hg.notTest.bind fun _ hx =>
    .pure (.unary ht.occurs.le rfl hx))

theorem connectiveLoop_heeds (word : Word) (hoperand : Heeds text operand fun _ => True) :
    ∀ turns, Heeds text (connectiveLoop word operand turns) fun _ => True
  | 0 => .pure trivial
  | turns + 1 =>
    .peek fun _ => .ite (.pure trivial) (.pop fun _ _ => hoperand.bind fun _ _ =>
      (connectiveLoop_heeds word hoperand turns).bind fun _ _ => .pure trivial)

theorem connective_heeds (word : Word) (op : Operator)
    (hoperand : Heeds text operand (·.Placed text.length)) :
    Heeds text (connective word op operand) (·.Placed text.length) := by
  refine hoperand.bind fun first hfirst => .remaining fun n =>
    (connectiveLoop_heeds word hoperand.any n).bind fun _ _ => ?_
  split
  · exact .pure hfirst
  · exact .pure (.foreign hfirst.inside rfl)

theorem orRule_heeds (hg : g.Places text) : Heeds text (orRule g) (·.Placed text.length) :=
  connective_heeds _ _ (connective_heeds _ _ (notRule_heeds hg))

theorem lambdaRule_heeds (hg : g.Places text) :
    Heeds text (lambdaRule g) (·.Placed text.length) :=
  .pop fun _ ht => (params_heeds hg _).bind fun _ _ => .expect fun _ _ _ =>
    hg.test.bind fun _ hb => .pure (.lambda ht.occurs.le hb)

theorem testRule_heeds (hg : g.Places text) : Heeds text (testRule g) (·.Placed text.length) := by
  refine .peek fun _ => .ite (lambdaRule_heeds hg) ?_
  refine (orRule_heeds hg).bind fun _ hb => .peek fun _ => .ite (.pure hb) ?_
  exact .pop fun _ _ => hg.orTest.bind fun _ _ => .expect fun _ _ _ => hg.test.bind fun _ _ =>
    .pure (.foreign hb.inside rfl)

theorem testListLoop_heeds (hg : g.Places text) : ∀ turns,
    Heeds text (testListLoop g turns) fun es => ∀ e ∈ es, e.Placed text.length
  | 0 => .pure (by simp)
  | turns + 1 => by
    refine .peek fun _ => .ite (.pure (by simp)) (.pop fun _ _ => ?_)
    refine .peek fun _ => .ite (.pure (by simp)) ((testOrStar_heeds hg.test hg).bind fun e he => ?_)
    exact (testListLoop_heeds hg turns).bind fun es hes =>
      .pure (List.forall_mem_cons.2 ⟨he, hes⟩)

theorem testListRule_heeds (hg : g.Places text) :
    Heeds text (testListRule g) (·.Placed text.length) := by
  refine (testOrStar_heeds (testRule_heeds hg) hg).bind fun first hfirst => ?_
  refine .peek fun _ => .ite (.pure hfirst) (.remaining fun n => ?_)
  exact (testListLoop_heeds hg n).bind fun es hes => .spanFrom fun _ hs =>
    .pure (.tuple (hs ▸ hfirst.inside) (List.forall_mem_cons.2 ⟨hfirst, hes⟩))

/-- On every level the rules find expressions of the text. -/
theorem level_places (text : List Char) : ∀ n, (level n).Places text
  | 0 => ⟨.unexpected, .unexpected, .unexpected, .unexpected, .unexpected, .unexpected⟩
  | n + 1 =>
    have hg := level_places text n
    ⟨testRule_heeds hg, orRule_heeds hg, notRule_heeds hg, bitOrRule_heeds hg, factorRule_heeds hg,
      testListRule_heeds hg⟩

end Grammar

namespace Blocks

/-- The rules that compound statements refer to find statements of the text. -/
structure Places (text : List Char) (b : Blocks) : Prop where
  statement : Heeds text b.statement fun ss => ∀ s ∈ ss, s.Placed text.length
  branch : Heeds text b.branch (·.Placed text.length)

variable {text : List Char} {g : Grammar} {b : Blocks}

theorem augmented_supported {k : Kind} {op : Operator} (h : augmented? k = some op) :
    op.isSupported = true := by
  unfold augmented? at h
  split at h <;> cases h <;> rfl

theorem valueBeforeEnd_heeds (hg : g.Places text) :
    Heeds text (valueBeforeEnd g) fun o => ∀ e ∈ o, e.Placed text.length :=
  .peek fun _ => .ite (.pure (by simp)) (hg.testList.bind fun _ he => .pure (by simpa using he))

theorem rightSide_heeds (hg : g.Places text) : Heeds text (rightSide g) (·.Placed text.length) :=
  .peek fun _ => .ite hg.testList (.pop fun _ ht => (valueBeforeEnd_heeds hg).bind fun _ _ =>
    .spanFrom fun _ hs => .pure (.foreign (hs ▸ ht.occurs.le) rfl))

theorem nameOf_heeds : Heeds text nameOf fun x => ∀ c ∈ x.toList, Text.isIdent c = true :=
  .expect fun _ ht hk => .pure (by simpa using ht.name hk)

theorem nameLoop_heeds : ∀ turns, Heeds text (nameLoop turns) fun _ => True
  | 0 => .pure trivial
  | turns + 1 =>
    .peek fun _ => .ite (.pure trivial) (.pop fun _ _ => nameOf_heeds.bind fun _ _ =>
      (nameLoop_heeds turns).bind fun _ _ => .pure trivial)

theorem assignLoop_heeds (hg : g.Places text) : ∀ turns,
    Heeds text (assignLoop g turns) fun es => ∀ e ∈ es, e.Placed text.length
  | 0 => .pure (by simp)
  | turns + 1 =>
    .peek fun _ => .ite (.pure (by simp)) (.pop fun _ _ => (rightSide_heeds hg).bind fun _ he =>
      (assignLoop_heeds hg turns).bind fun _ hes => .pure (List.forall_mem_cons.2 ⟨he, hes⟩))

theorem expressionStatement_heeds (hg : g.Places text) {start : Nat} (hstart : start ≤ text.length) :
    Heeds text (expressionStatement g start) (·.Placed text.length) := by
  refine (rightSide_heeds hg).bind fun first hfirst => .peek fun k => ?_
  split
  · rename_i op hop
    exact .pop fun _ _ => (rightSide_heeds hg).bind fun _ hv => .spanFrom fun _ hs =>
      .pure (.augAssign (hs ▸ hstart) (augmented_supported hop) hfirst hv)
  · refine .remaining fun n => (assignLoop_heeds hg n).bind fun others hothers =>
      .spanFrom fun _ hs => ?_
    split
    · exact .pure (.expr (hs ▸ hstart) hfirst)
    · rename_i value hvalue
      refine .pure (.assign (hs ▸ hstart) (List.forall_mem_cons.2 ⟨hfirst, fun e he => ?_⟩) ?_)
      · exact hothers e ((List.dropLast_sublist others).subset he)
      · exact hothers value (List.mem_of_getLast? hvalue)

theorem simple_heeds (hg : g.Places text) : Heeds text (simple g) (·.Placed text.length) := by
  refine .next fun t ht => ?_
  have hinside : t.start ≤ text.length := ht.occurs.le
  split
  · exact .pop fun _ _ => (valueBeforeEnd_heeds hg).bind fun _ hv => .spanFrom fun _ hs =>
      .pure (.returnValue (hs ▸ hinside) hv)
  · exact .pop fun _ _ => .spanFrom fun _ hs => .pure (.foreign (hs ▸ hinside) rfl)
  · exact .pop fun _ _ => .spanFrom fun _ hs => .pure (.foreign (hs ▸ hinside) rfl)
  · exact .pop fun _ _ => .spanFrom fun _ hs => .pure (.foreign (hs ▸ hinside) rfl)
  · exact .pop fun _ _ => (valueBeforeEnd_heeds hg).bind fun _ _ => .spanFrom fun _ hs =>
      .pure (.foreign (hs ▸ hinside) rfl)
  · exact .pop fun _ _ => nameOf_heeds.bind fun _ _ => .remaining fun n =>
      (nameLoop_heeds n).bind fun _ _ => .spanFrom fun _ hs => .pure (.foreign (hs ▸ hinside) rfl)
  · exact .pop fun _ _ => nameOf_heeds.bind fun _ _ => .remaining fun n =>
      (nameLoop_heeds n).bind fun _ _ => .spanFrom fun _ hs => .pure (.foreign (hs ▸ hinside) rfl)
  · exact expressionStatement_heeds hg hinside

theorem simpleLoop_heeds (hg : g.Places text) : ∀ turns,
    Heeds text (simpleLoop g turns) fun ss => ∀ s ∈ ss, s.Placed text.length
  | 0 => .pure (by simp)
  | turns + 1 => by
    refine (simple_heeds hg).bind fun s hs => ?_
    refine .peek fun _ => .ite (.pure (by simpa using hs)) (.pop fun _ _ => ?_)
    refine .peek fun _ => .ite (.pure (by simpa using hs)) ?_
    exact (simpleLoop_heeds hg turns).bind fun _ hss => .pure (List.forall_mem_cons.2 ⟨hs, hss⟩)

theorem simpleLine_heeds (hg : g.Places text) :
    Heeds text (simpleLine g) fun ss => ∀ s ∈ ss, s.Placed text.length :=
  .remaining fun _ => (simpleLoop_heeds hg _).bind fun _ hss => .expect fun _ _ _ => .pure hss

theorem statementLoop_heeds (hb : b.Places text) : ∀ turns,
    Heeds text (statementLoop b turns) fun ss => ∀ s ∈ ss, s.Placed text.length
  | 0 => .pure (by simp)
  | turns + 1 =>
    .peek fun _ => .ite (.pure (by simp)) (hb.statement.bind fun _ hs =>
      (statementLoop_heeds hb turns).bind fun _ hss => .pure (List.forall_mem_append.2 ⟨hs, hss⟩))

theorem suite_heeds (hg : g.Places text) (hb : b.Places text) :
    Heeds text (suite g b) fun ss => ∀ s ∈ ss, s.Placed text.length :=
  .expect fun _ _ _ => .peek fun _ => .ite (simpleLine_heeds hg) (.pop fun _ _ =>
    .expect fun _ _ _ => .remaining fun _ => (statementLoop_heeds hb _).bind fun _ hss =>
      .pop fun _ _ => .pure hss)

theorem optionalSuite_heeds (hg : g.Places text) (hb : b.Places text) (word : Word) :
    Heeds text (optionalSuite g b word) fun ss => ∀ s ∈ ss, s.Placed text.length :=
  .peek fun _ => .ite (.pure (by simp)) (.pop fun _ _ => suite_heeds hg hb)

theorem functionDef_heeds (hg : g.Places text) (hb : b.Places text) {start : Nat}
    (hstart : start ≤ text.length) (decorators : List Expr) :
    Heeds text (functionDef g b start decorators) (·.Placed text.length) :=
  .expect fun _ _ _ => nameOf_heeds.bind fun _ hname => .expect fun _ _ _ =>
    (Grammar.params_heeds hg _).bind fun _ _ => .expect fun _ _ _ =>
      (suite_heeds hg hb).bind fun _ hbody => .spanFrom fun _ hs =>
        .pure (.functionDef (hs ▸ hstart) hname hbody)

theorem branchRule_heeds (hg : g.Places text) (hb : b.Places text) :
    Heeds text (branchRule g b) (·.Placed text.length) := by
  refine .pop fun t ht => hg.test.bind fun c hc => (suite_heeds hg hb).bind fun body hbody => ?_
  have hrest {orelse : List Stmt} (ho : ∀ s ∈ orelse, s.Placed text.length) :
      Heeds text (do return Stmt.ifElse (← Grammar.spanFrom t.start) c body orelse)
        (Stmt.Placed text.length) :=
    .spanFrom fun _ hs => .pure (.ifElse (hs ▸ ht.occurs.le) hc hbody ho)
  have hbranch : Heeds text (do return [← b.branch]) fun ss => ∀ s ∈ ss, s.Placed text.length :=
    hb.branch.bind fun s hs => .pure (by simpa using hs)
  refine .peek fun _ => .ite ?_ ?_
  · exact hbranch.bind fun _ ho => hrest ho
  · exact (optionalSuite_heeds hg hb _).bind fun _ ho => hrest ho

theorem whileRule_heeds (hg : g.Places text) (hb : b.Places text) :
    Heeds text (whileRule g b) (·.Placed text.length) :=
  .expect fun _ ht _ => hg.test.bind fun _ hc => (suite_heeds hg hb).bind fun _ hbody =>
    (optionalSuite_heeds hg hb _).bind fun _ _ => .spanFrom fun _ hs =>
      .pure (.whileLoop (hs ▸ ht.occurs.le) hc hbody)

theorem forRule_heeds (hg : g.Places text) (hb : b.Places text) :
    Heeds text (forRule g b) (·.Placed text.length) :=
  .expect fun _ ht _ => (Grammar.targetList_heeds hg.bitOr.any hg).bind fun _ _ =>
    .expect fun _ _ _ => hg.testList.bind fun _ _ => (suite_heeds hg hb).bind fun _ _ =>
      (optionalSuite_heeds hg hb _).bind fun _ _ => .spanFrom fun _ hs =>
        .pure (.foreign (hs ▸ ht.occurs.le) rfl)

theorem handlerHead_heeds (hg : g.Places text) :
    Heeds text (handlerHead g) fun _ => True :=
  .peek fun _ => .ite (.pure trivial) (hg.test.bind fun _ _ => .peek fun _ => .ite (.pure trivial)
    (.pop fun _ _ => nameOf_heeds.bind fun _ _ => .pure trivial))

theorem handlerLoop_heeds (hg : g.Places text) (hb : b.Places text) : ∀ turns,
    Heeds text (handlerLoop g b turns) fun _ => True
  | 0 => .pure trivial
  | turns + 1 =>
    .peek fun _ => .ite (.pure trivial) (.pop fun _ _ => (handlerHead_heeds hg).bind fun _ _ =>
      (suite_heeds hg hb).bind fun _ _ => .spanFrom fun _ _ =>
        (handlerLoop_heeds hg hb turns).bind fun _ _ => .pure trivial)

theorem tryRule_heeds (hg : g.Places text) (hb : b.Places text) :
    Heeds text (tryRule g b) (·.Placed text.length) := by
  refine .expect fun t ht _ => (suite_heeds hg hb).bind fun body _ => .remaining fun n =>
    (handlerLoop_heeds hg hb n).bind fun handlers _ => (optionalSuite_heeds hg hb _).bind
      fun orelse _ => (optionalSuite_heeds hg hb _).bind fun finalbody _ => ?_
  have hrest : Heeds text (do
      return Stmt.tryExcept (← Grammar.spanFrom t.start) body handlers orelse finalbody)
      (Stmt.Placed text.length) :=
    .spanFrom fun _ hs => .pure (.foreign (hs ▸ ht.occurs.le) rfl)
  exact .ite (.require hrest) hrest

theorem decoratorLoop_heeds (hg : g.Places text) : ∀ turns,
    Heeds text (decoratorLoop g turns) fun _ => True
  | 0 => .pure trivial
  | turns + 1 =>
    .peek fun _ => .ite (.pure trivial) (.pop fun _ _ => hg.test.bind fun _ _ =>
      .expect fun _ _ _ => (decoratorLoop_heeds hg turns).bind fun _ _ => .pure trivial)

theorem statementRule_heeds (hg : g.Places text) (hb : b.Places text) :
    Heeds text (statementRule g b) fun ss => ∀ s ∈ ss, s.Placed text.length := by
  have hone {rule : Reader Stmt} (h : Heeds text rule (·.Placed text.length)) :
      Heeds text (do return [← rule]) fun ss => ∀ s ∈ ss, s.Placed text.length :=
    h.bind fun s hs => .pure (by simpa using hs)
  refine .next fun t ht => ?_
  have hinside : t.start ≤ text.length := ht.occurs.le
  split
  · exact .remaining fun n => (decoratorLoop_heeds hg n).bind fun ds _ => .require
      (hone (functionDef_heeds hg hb hinside ds))
  · exact hone (functionDef_heeds hg hb hinside [])
  · exact hone (branchRule_heeds hg hb)
  · exact hone (whileRule_heeds hg hb)
  · exact hone (forRule_heeds hg hb)
  · exact hone (tryRule_heeds hg hb)
  · exact .unexpected
  · exact simpleLine_heeds hg

theorem level_places (hg : g.Places text) : ∀ n, (level g n).Places text
  | 0 => ⟨.unexpected, .unexpected⟩
  | n + 1 =>
    have hb := level_places hg n
    ⟨statementRule_heeds hg hb, branchRule_heeds hg hb⟩

theorem moduleLoop_heeds (hb : b.Places text) : ∀ turns,
    Heeds text (moduleLoop b turns) fun ss => ∀ s ∈ ss, s.Placed text.length
  | 0 => .pure (by simp)
  | turns + 1 => by
    refine .peek fun k => ?_
    split
    · exact .pure (by simp)
    · exact .pop fun _ _ => moduleLoop_heeds hb turns
    · exact hb.statement.bind fun _ hs => (moduleLoop_heeds hb turns).bind fun _ hss =>
        .pure (List.forall_mem_append.2 ⟨hs, hss⟩)

end Blocks

theorem readGrammar_heeds (text : List Char) : Heeds text readGrammar (Grammar.Places text) :=
  .remaining fun _ => .pure (Grammar.level_places text _)

theorem readStatements_heeds (text : List Char) :
    Heeds text readStatements fun ss => ∀ s ∈ ss, s.Placed text.length :=
  (readGrammar_heeds text).bind fun _ hg => .remaining fun _ => .remaining fun _ =>
    Blocks.moduleLoop_heeds (Blocks.level_places hg _) _

theorem readFront_eq {α : Type} {text : List Char} {tokens : List Token} (reader : Reader α)
    (h : tokenize text = .ok tokens) : readFront reader text = reader (.ofTokens tokens) := by
  unfold readFront
  rw [h]
  rfl

theorem readModule_of_error {text : List Char} {f : Fault} (h : tokenize text = .error f) :
    readModule text = .error f := by
  unfold readModule readFront
  rw [h]
  rfl

/-- What is read from a text has its place there, and what cannot be read blames a piece of it. -/
theorem readModule_settles (text : List Char) :
    Settles (readModule text) (Fault.OfText text) fun m =>
      m.span.start ≤ text.length ∧ ∀ s ∈ m.body, s.Placed text.length := by
  have hread : Settles (tokenize text >>= fun tokens => readStatements (.ofTokens tokens))
      (Fault.OfText text) fun p => ∀ s ∈ p.1, s.Placed text.length :=
    (tokenize_settles text).known.bind fun tokens ht =>
      (readStatements_heeds text _ (.of_tokenize ht.1)).imp fun _ hp => hp.1
  exact hread.bind fun p hp => .of_ok ⟨Nat.zero_le _, hp⟩

end Hoist.Surface
