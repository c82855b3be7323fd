import Hoist.Proofs.Surface.Separated
import Hoist.Proofs.Surface.Steady

/-!
# Rules that do the same in front of something else

Every rule of the grammar takes the same tokens in front of whatever ends it, with any number of levels
that is enough for the tokens there. A rule of some looseness ends at a token that does not go on with
an expression of this looseness; a list may also end behind a comma, so it does not end at a token that
starts an expression.
-/

namespace Hoist.Surface

/-- The kinds with which an expression of some looseness starts. -/
def OpensAt (p : Nat) (k : Kind) : Prop := entry k ≤ p

/-- The kinds at which an expression of some looseness ends. -/
def EndsAt (p : Nat) (k : Kind) : Prop := p < reach k

instance (p : Nat) : DecidablePred (OpensAt p) := fun _ => inferInstanceAs (Decidable (_ ≤ _))

instance (p : Nat) : DecidablePred (EndsAt p) := fun _ => inferInstanceAs (Decidable (_ < _))

theorem EndsAt.mono {p q : Nat} {k : Kind} (h : EndsAt q k) (hpq : p ≤ q) : EndsAt p k :=
  Nat.lt_of_le_of_lt hpq h

theorem EndsAt.ne {p : Nat} {k k' : Kind} (h : EndsAt p k) (hk : reach k' ≤ p) : k ≠ k' := by
  rintro rfl
  exact absurd h (Nat.not_lt.2 hk)

namespace Grammar

/-- The kinds with which an expression or a starred one starts. -/
def OpensItem (k : Kind) : Prop := startsExpression k = true

/-- The kinds at which a list of expressions without parentheses ends. -/
def EndsList (k : Kind) : Prop := EndsAt 15 k ∧ startsExpression k = false

/-- The rules that other rules refer to do the same in two grammars, if no more than `n` tokens are
left. -/
structure Steadily (n : Nat) (g g' : Grammar) : Prop where
  test : Steady anyKind n 1 (OpensAt 14) (EndsAt 14) g.test g'.test
  orTest : Steady anyKind n 1 (OpensAt 13) (EndsAt 13) g.orTest g'.orTest
  notTest : Steady anyKind n 1 (OpensAt 11) (EndsAt 11) g.notTest g'.notTest
  bitOr : Steady anyKind n 1 (OpensAt 9) (EndsAt 9) g.bitOr g'.bitOr
  factor : Steady anyKind n 1 (OpensAt 3) (EndsAt 3) g.factor g'.factor
  testList : Steady anyKind n 1 OpensItem EndsList g.testList g'.testList

theorem Steadily.bound {n m : Nat} {g g' : Grammar} (h : Steadily n g g') (hn : m ≤ n) :
    Steadily m g g' :=
  ⟨h.test.bound hn, h.orTest.bound hn, h.notTest.bound hn, h.bitOr.bound hn, h.factor.bound hn,
    h.testList.bound hn⟩

section Loops

variable {α : Type} {n turns k : Nat} {item item' : Reader α} {opens ends : Kind → Prop}
  {close : Kind}

theorem itemLoop_steady (hitem : Steady anyKind n 1 opens ends item item')
    (hcomma : ends (.mark .comma)) (hclose : ends close) (hn : n ≤ k) :
    Steady anyKind n 0 anyKind (· = close) (itemLoop item close turns)
      (itemLoop item' close k) := by
  induction turns generalizing n k with
  | zero => exact .turn (fun _ _ => .pure_upTo) hn
  | succ turns ih =>
    refine .turn (fun turns' hn => ?_) hn
    have hloop := ih (hitem.bound (m := n - 1 - 1) (by omega)) (k := turns') (by omega)
    exact .upTo .pure (.bind hitem.everywhere.begins (fun _ => .upTo .pure (.expect (by simp) hcomma
      fun _ _ => .bind_empty hloop (fun _ => .pure) fun _ _ => id))
      (by rintro - _ rfl; exact hclose))

/-- The kinds at which items behind a first one end. -/
def EndsTail (ends : Kind → Prop) (stop : Kind → Bool) (k : Kind) : Prop :=
  ends k ∧ k ≠ .mark .comma ∧ stop k = true

/-- At a comma the loop takes it. -/
theorem tailLoop_comma {stop : Kind → Bool} {loop loop' : Reader (List α)}
    (hitem : Steady anyKind n 1 opens ends item item') 
    (hloop : Steady anyKind (n - 1) 0 ends (EndsTail ends stop) loop loop') :
    Steady (· = .mark .comma) n 1 (· = .mark .comma) (EndsTail ends stop)
      (do
        let _ ← Reader.pop
        if stop (← Reader.peek) then return []
        let a ← item
        return a :: (← loop))
      (do
        let _ ← Reader.pop
        if stop (← Reader.peek) then return []
        let a ← item'
        return a :: (← loop')) :=
  .popped nofun rfl fun _ _ => .choose .pure
    (.bind (hitem.bound (Nat.sub_le n 1)).everywhere.begins
      (fun _ => .bind_empty (hloop.bound (by omega)) (fun _ => .pure) fun _ _ => id) fun _ _ hk => hk.1)
    (Nat.le_refl _) (Nat.zero_le _) (fun _ _ hk => hk.2.2) nofun

theorem tailLoop_steady {stop : Kind → Bool} (hitem : Steady anyKind n 1 opens ends item item')
    (hcomma : ends (.mark .comma)) (hn : n ≤ k) :
    Steady anyKind n 0 (· = .mark .comma) (EndsTail ends stop) (tailLoop item stop turns)
      (tailLoop item' stop k) := by
  induction turns generalizing n k with
  | zero => exact .turn (fun _ _ => .pure_against fun _ hk => hk.2.1) hn
  | succ turns ih =>
    refine .turn (fun turns' hn => ?_) hn
    have hloop := ih (hitem.bound (m := n - 1) (by omega)) (k := turns') (by omega)
    exact .against .pure (tailLoop_comma hitem (hloop.opens_imp (by rintro _ rfl; exact hcomma)))
      (by decide) fun _ _ hk => hk.2.1

theorem tailLoop_some {stop : Kind → Bool} (hitem : Steady anyKind n 1 opens ends item item')
    (hcomma : ends (.mark .comma)) (hn : n ≤ k) :
    Steady (· = .mark .comma) n 1 (· = .mark .comma) (EndsTail ends stop)
      (tailLoop item stop (turns + 1)) (tailLoop item' stop k) := by
  refine .turn (fun turns' hn => ?_) hn
  have hloop : Steady anyKind (n - 1) 0 (· = .mark .comma) (EndsTail ends stop)
      (tailLoop item stop turns) (tailLoop item' stop turns') :=
    tailLoop_steady (hitem.bound (by omega)) hcomma (by omega)
  exact .against (.never fun k hk => hk.2 hk.1)
    (tailLoop_comma hitem (hloop.opens_imp (by rintro _ rfl; exact hcomma))) (Nat.le_refl _) nofun

end Loops

section Expressions

variable {n : Nat} {g g' : Grammar}

theorem leftFold_stops_at {operators : List Operator} {p : Nat} {k : Kind}
    (hops : ∀ op ∈ operators, op.looseness = p) (hk : EndsAt p k) {left : Expr}
    {go : Operator → Reader Expr} : (match binaryOperator? k with
      | none => (return left : Reader Expr)
      | some op => if !operators.contains op then return left else go op) = return left := by
  split
  · rfl
  · rename_i op hop
    refine if_pos ?_
    have hnot : op ∉ operators := fun hmem => by
      have := hops op hmem
      have := binaryOperator_reach hop
      unfold EndsAt at hk
      omega
    simpa using hnot

theorem leftFold_steady {operators : List Operator} {p turns k : Nat} {e : Expr}
    {operand operand' : Reader Expr} (hops : ∀ op ∈ operators, op.looseness = p) (hp : 0 < p)
    (hoperand : Steady anyKind n 1 (OpensAt (p - 1)) (EndsAt (p - 1)) operand operand')
    (hn : n ≤ k) :
    Steady anyKind n 0 (EndsAt (p - 1)) (EndsAt p) (leftFold operators operand turns e)
      (leftFold operators operand' k e) := by
  induction turns generalizing n k e with
  | zero =>
    exact .turn (f := fun turns => leftFold operators operand' turns e)
      (fun _ _ => .pure_peek fun k hk => leftFold_stops_at hops hk) hn
  | succ turns ih =>
    refine .turn (f := fun turns => leftFold operators operand' turns e)
      (fun turns' hn => .peek fun k _ => ?_) hn
    cases hop : binaryOperator? k with
    | none => exact ⟨0, Nat.le_refl _, .pure, fun _ k' hk' => leftFold_stops_at hops hk'⟩
    | some op =>
      by_cases hmem : op ∈ operators
      · refine ⟨1, Nat.zero_le _, ?_, nofun⟩
        have hreach : reach k = p := (binaryOperator_reach hop).trans (hops op hmem)
        have hend : k ≠ .endOfInput := by rintro rfl; cases hop
        have hloop (e : Expr) := ih (e := e) (hoperand.bound (m := n - 1 - 1) (by omega))
          (k := turns') (by omega)
        have hsome : (!operators.contains op) = false := by simpa using hmem
        simp only [hsome, Bool.false_eq_true, if_false]
        exact .popped hend (by unfold EndsAt; omega) fun _ _ =>
          .bind (hoperand.bound (Nat.sub_le n 1)).begins (fun _ => hloop _)
            fun _ _ hk => hk.mono (Nat.sub_le p 1)
      · have hnone : (!operators.contains op) = true := by simpa using hmem
        refine ⟨0, Nat.le_refl _, ?_, fun _ k' hk' => ?_⟩
        · simp only [hnone, if_true]
          exact .pure
        · exact (leftFold_stops_at hops hk').trans (if_pos hnone).symm

theorem binaryLevel_steady {operators : List Operator} {p : Nat} {operand operand' : Reader Expr}
    (hops : ∀ op ∈ operators, op.looseness = p) (hp : 0 < p)
    (hoperand : Steady anyKind n 1 (OpensAt (p - 1)) (EndsAt (p - 1)) operand operand') :
    Steady anyKind n 1 (OpensAt (p - 1)) (EndsAt p) (binaryLevel operators operand)
      (binaryLevel operators operand') :=
  hoperand.bind (fun _ => .remaining fun _ _ _ hm hturns =>
    leftFold_steady hops hp (hoperand.bound (by omega)) hturns) fun _ _ hk => hk.mono (Nat.sub_le p 1)

theorem param_steady : Steady anyKind n 1 (· = .identifier) anyKind param param :=
  .expect nofun rfl fun _ _ => .pure

/-- The kinds at which a parameter with its default value ends. -/
def EndsParam (k : Kind) : Prop := EndsAt 14 k ∧ k ≠ .mark .equal ∧ k ≠ .identifier

theorem defaultValue_steady (hg : Steadily n g g') :
    Steady anyKind n 0 anyKind EndsParam (defaultValue? g) (defaultValue? g') :=
  .against .pure (.popped nofun trivial fun _ _ =>
    .bind (hg.test.bound (Nat.sub_le n 1)).begins (fun _ => .pure) fun _ _ hk => hk.1) (by decide)
    fun _ _ hk => hk.2.1

theorem oneParam_steady (hg : Steadily n g g') (ps : Params Expr) (keywordOnly : Bool) :
    Steady anyKind n 1 anyKind EndsParam (oneParam g ps keywordOnly) (oneParam g' ps keywordOnly) := by
  refine .peek fun k _ => ⟨1, Nat.le_refl _, ?_, nofun⟩
  split
  · exact .popped nofun trivial fun _ _ => .ite .refused (.when
      (.bind param_steady.everywhere.begins (fun _ => .pure) fun _ _ _ => trivial) .pure
      (Nat.zero_le _) fun _ _ hk => hk.2.2)
  · exact .popped nofun trivial fun _ _ => .bind param_steady.begins (fun _ => .pure) fun _ _ _ => trivial
  · exact .bind param_steady.everywhere.begins (fun _ => .bind_empty
      (defaultValue_steady (hg.bound (Nat.sub_le n 1))) (fun _ => .ite .pure .pure) fun _ _ => id)
      fun _ _ _ => trivial

theorem paramLoop_steady (hg : Steadily n g g') {close : Kind} {turns k : Nat}
    (hclose : EndsParam close) (hn : n ≤ k) (ps : Params Expr) (keywordOnly : Bool) :
    Steady anyKind n 0 anyKind (· = close) (paramLoop g close turns ps keywordOnly)
      (paramLoop g' close k ps keywordOnly) := by
  induction turns generalizing n k ps keywordOnly with
  | zero =>
    exact .turn (f := fun turns => paramLoop g' close turns ps keywordOnly) (fun _ _ => .pure_upTo) hn
  | succ turns ih =>
    refine .turn (f := fun turns => paramLoop g' close turns ps keywordOnly) (fun turns' hn => ?_) hn
    have hloop (ps : Params Expr) (keywordOnly : Bool) :=
      ih (hg.bound (m := n - 1 - 1) (by omega)) (k := turns') (by omega) ps keywordOnly
    have hcomma : EndsParam (.mark .comma) := ⟨by decide, nofun, nofun⟩
    refine .upTo .pure (.bind (l := 0) (oneParam_steady hg ps keywordOnly).everywhere (fun _ => ?_)
      (by rintro - _ rfl; exact hclose))
    exact .upTo .pure (.expect nofun hcomma fun _ _ => .ite
      (.require (fun _ => (hloop _ _).everywhere) fun _ _ => id) (hloop _ _))

theorem params_steady (hg : Steadily n g g') {close : Kind} (hclose : EndsParam close) :
    Steady anyKind n 0 anyKind (· = close) (params g close) (params g' close) :=
  .remaining fun _ _ _ hm hturns =>
    paramLoop_steady (hg.bound hm) hclose (Nat.le_succ_of_le hturns) _ _

theorem targetList_steady (hg : Steadily n g g') :
    Steady anyKind n 1 (OpensAt 9) (· = .word .in_) (targetListWith g.bitOr g)
      (targetListWith g'.bitOr g') := by
  refine .start fun _ => .bind (l := 0) hg.bitOr (fun e => ?_) (by rintro - _ rfl; decide)
  refine .against .pure (.remaining_succ (by rintro _ rfl; nofun) fun m turns turns' hm hturns => ?_)
    (Nat.zero_le _) (by rintro - _ rfl; nofun)
  rw [targetLoop_eq, targetLoop_eq]
  refine .bind (l := 0) ((tailLoop_some (hg.bitOr.bound (by omega)) (by decide) hturns).opens_imp ?_)
    (fun _ => .spanFrom fun _ => .pure) ?_
  · rintro _ rfl
    decide
  · rintro - _ rfl
    exact ⟨by decide, nofun, rfl⟩

theorem conditionLoop_steady (hg : Steadily n g g') {turns k : Nat} (hn : n ≤ k) :
    Steady anyKind n 0 (EndsAt 13) (EndsAt 14) (conditionLoop g turns) (conditionLoop g' k) := by
  induction turns generalizing n k with
  | zero => exact .turn (fun _ _ => .pure_against fun _ hk => hk.ne (by decide)) hn
  | succ turns ih =>
    refine .turn (fun turns' hn => ?_) hn
    have hloop := ih (hg.bound (m := n - 1 - 1) (by omega)) (k := turns') (by omega)
    exact .against .pure (.popped nofun (by decide) fun _ _ =>
      .bind (hg.orTest.bound (Nat.sub_le n 1)).begins
        (fun _ => hloop.bind_empty (fun _ => .pure) fun _ _ => id)
        fun _ _ hk => hk.mono (by decide))
      (by decide) fun _ _ hk => hk.ne (by decide)

theorem generatorLoop_steady (hg : Steadily n g g') {turns k : Nat} (hn : n ≤ k) :
    Steady anyKind n 0 (EndsAt 14) (fun k => EndsAt 14 k ∧ k ≠ .word .for_) (generatorLoop g turns)
      (generatorLoop g' k) := by
  induction turns generalizing n k with
  | zero => exact .turn (fun _ _ => .pure_against fun _ hk => hk.2) hn
  | succ turns ih =>
    refine .turn (fun turns' hn => ?_) hn
    have hloop := ih (hg.bound (m := n - 1 - 1 - 1 - 1) (by omega)) (k := turns') (by omega)
    refine .against .pure (.popped (l := 1) nofun (by decide) fun _ _ => ?_) (by decide)
      fun _ _ hk => hk.2
    refine .bind (l := 1) (targetList_steady (hg.bound (Nat.sub_le n 1))).begins (fun _ => ?_) nofun
    refine .expect (l := 1) nofun rfl fun _ _ => ?_
    refine .bind (l := 0) (hg.orTest.bound (by omega)).begins (fun _ => ?_)
      fun _ _ hk => hk.1.mono (by decide)
    refine .remaining fun m turns'' turns' hm hturns => ?_
    refine .bind_empty (l := 0) (conditionLoop_steady (hg.bound (by omega)) hturns) (fun _ => ?_)
      fun _ _ hk => hk.1
    exact ((hloop.bound hm).opens_imp fun k hk => ⟨hk.mono (by decide), hk⟩).bind_empty
      (fun _ => .pure) fun _ _ => id

theorem yieldExpr_steady (hg : Steadily n g g') :
    Steady anyKind n 1 (· = .word .yield_) EndsList (yieldExpr g) (yieldExpr g') :=
  .expect nofun rfl fun _ _ => .choose
    (.bind (hg.testList.bound (Nat.sub_le n 1)).everywhere.begins (fun _ => .spanFrom fun _ => .pure)
      fun _ _ => id)
    (.spanFrom fun _ => .pure) (Nat.zero_le _) (Nat.le_refl _) nofun fun _ _ hk => hk.2

theorem opensItem_of {p : Nat} (hp : p ≤ 15) {k : Kind} (h : OpensAt p k) : OpensItem k :=
  startsExpression_of_entry (Nat.le_trans h hp)

theorem testOrStar_steady {test test' : Reader Expr}
    (htest : Steady anyKind n 1 (OpensAt 14) (EndsAt 14) test test') (hg : Steadily (n - 1) g g') :
    Steady anyKind n 1 OpensItem (EndsAt 14) (testOrStarWith test g) (testOrStarWith test' g') :=
  .against (htest.everywhere.opens_imp fun _ => opensItem_of (by decide))
    (.popped nofun rfl fun _ _ =>
      .bind hg.bitOr.begins (fun _ => .pure) fun _ _ hk => hk.mono (by decide))
    (Nat.le_refl _) nofun

theorem elements_steady (hg : Steadily n g g') {close : Kind} (hclose : EndsAt 14 close) :
    Steady anyKind n 0 anyKind (· = close) (elements g close) (elements g' close) := by
  refine .remaining fun m turns turns' hm hturns => ?_
  rw [elementLoop_eq, elementLoop_eq]
  have hg := hg.bound hm
  exact itemLoop_steady (testOrStar_steady hg.test (hg.bound (Nat.sub_le m 1))) (by decide) hclose
    (Nat.le_succ_of_le hturns)

/-- At a string the loop takes it. -/
theorem stringLoop_string {loop loop' : Reader (List Char)}
    (hloop : Steady anyKind (n - 1) 0 anyKind (EndsAt 0) loop loop') :
    Steady (· = .string) n 1 (· = .string) (EndsAt 0)
      (do
        let t ← Reader.pop
        let s ← (stringValue t : Except Fault (List Char))
        return s ++ (← loop))
      (do
        let t ← Reader.pop
        let s ← (stringValue t : Except Fault (List Char))
        return s ++ (← loop')) :=
  .popped nofun rfl fun _ _ => .lift fun _ => .bind_empty hloop (fun _ => .pure) fun _ _ => id

theorem stringLoop_steady {turns k : Nat} (hn : n ≤ k) :
    Steady anyKind n 0 (· = .string) (EndsAt 0) (stringLoop turns) (stringLoop k) := by
  induction turns generalizing n k with
  | zero => exact .turn (fun _ _ => .pure_against fun _ hk => hk.ne (by decide)) hn
  | succ turns ih =>
    exact .turn (fun turns' hn => .against .pure (stringLoop_string (ih (by omega)).begins)
      (by decide) fun _ _ hk => hk.ne (by decide)) hn

theorem stringLoop_some {turns k : Nat} (hn : n ≤ k) :
    Steady (· = .string) n 1 (· = .string) (EndsAt 0) (stringLoop (turns + 1)) (stringLoop k) :=
  .turn (fun _ hn => .against (.never fun k hk => hk.2 hk.1)
    (stringLoop_string (stringLoop_steady (by omega)).begins) (Nat.le_refl _) nofun) hn

theorem parenthesised_steady (hg : Steadily (n - 1) g g') :
    Steady (· = .mark .parenOpen) n 1 (· = .mark .parenOpen) anyKind (parenthesised g)
      (parenthesised g') := by
  refine .popped (l := 1) nofun rfl fun _ _ => .when ?_ ?_ (Nat.le_refl _) nofun
  · exact (yieldExpr_steady hg).everywhere.begins.bind
      (fun _ => .expect nofun ⟨by decide, rfl⟩ fun _ _ => .pure) nofun
  · refine .bind_empty (l := 1) (elements_steady hg (by decide)).everywhere (fun p => ?_) nofun
    refine .expect (l := 0) nofun ⟨trivial, rfl⟩ fun _ _ => ?_
    obtain ⟨es, comma⟩ := p
    dsimp only
    split <;> exact .pure

theorem bracketed_steady (hg : Steadily (n - 1) g g') :
    Steady (· = .mark .bracketOpen) n 1 (· = .mark .bracketOpen) anyKind (bracketed g)
      (bracketed g') := by
  refine .popped (l := 1) nofun rfl fun _ _ => .when (.expect nofun trivial fun _ _ => .pure) ?_
    (Nat.le_refl _) nofun
  refine .bind (l := 1) (testOrStar_steady hg.test (hg.bound (Nat.sub_le _ 1))).everywhere.begins
    (fun _ => .when ?_ (.when ?_ ?_ (Nat.le_refl _) nofun) (Nat.le_refl _) nofun) nofun
  · exact .remaining fun m turns turns' hm hturns => .bind_empty
      (generatorLoop_steady (hg.bound (by omega)) hturns).everywhere
      (fun _ => .expect nofun ⟨by decide, by decide, nofun⟩ fun _ _ => .pure) nofun
  · exact .expect nofun (by decide) fun _ _ => .pure
  · refine (Steady.expect (l := 1) nofun (by decide) fun _ _ => ?_)
    exact .bind_empty (elements_steady (hg.bound (by omega)) (by decide))
      (fun _ => .expect nofun ⟨trivial, rfl⟩ fun _ _ => .pure) nofun

theorem oneEntry_steady (hg : Steadily n g g') :
    Steady anyKind n 1 (OpensAt 14) (EndsAt 14) (oneEntry g) (oneEntry g') :=
  hg.test.bind (fun _ => .expect nofun (by decide) fun _ _ =>
    (hg.test.bound (by omega)).begins.bind (fun _ => .pure) fun _ _ => id) nofun

theorem braced_steady (hg : Steadily (n - 1) g g') :
    Steady (· = .mark .braceOpen) n 1 (· = .mark .braceOpen) anyKind (braced g) (braced g') := by
  refine .popped (l := 1) nofun rfl fun _ _ => .remaining fun m turns turns' hm hturns => ?_
  rw [entryLoop_eq, entryLoop_eq]
  have hg := hg.bound hm
  exact .bind_empty (itemLoop_steady (oneEntry_steady hg) (by decide) (by decide)
    (Nat.le_succ_of_le hturns)).map (fun _ => .expect nofun ⟨trivial, rfl⟩ fun _ _ => .pure) nofun

theorem atom_steady (hg : Steadily (n - 1) g g') :
    Steady anyKind n 1 (OpensAt 0) (EndsAt 0) (atom g) (atom g') := by
  have hends {pre opens : Kind → Prop} {r r' : Reader Expr} (h : Steady pre n 1 opens anyKind r r') :
      Steady pre n 1 opens (EndsAt 0) r r' := h.ends_imp fun _ _ => trivial
  refine .next fun u _ => ?_
  dsimp only
  split
  all_goals first | exact .unexpected | (rename_i hk; rw [hk])
  · exact .popped nofun (by decide) fun _ _ => .pure
  · exact .popped nofun (by decide) fun _ _ => .lift fun _ => .pure
  · exact .remaining_succ (by rintro _ rfl; nofun) fun m turns turns' hm hturns => .bind
      ((stringLoop_some hturns).opens_imp (by rintro _ rfl; decide)) (fun _ => .spanFrom fun _ => .pure)
      fun _ _ => id
  · exact .popped nofun (by decide) fun _ _ => .pure
  · exact .popped nofun (by decide) fun _ _ => .pure
  · exact .popped nofun (by decide) fun _ _ => .pure
  · exact (hends (parenthesised_steady hg)).opens_imp (by rintro _ rfl; decide)
  · exact (hends (bracketed_steady hg)).opens_imp (by rintro _ rfl; decide)
  · exact (hends (braced_steady hg)).opens_imp (by rintro _ rfl; decide)

/-- Whether a kind is one of some marks. -/
def among (marks : List Mark) : Kind → Bool
  | .mark m => marks.contains m
  | _ => false

theorem atMark_bind {α : Type} (marks : List Mark) (f : Bool → Reader α) :
    atMark marks >>= f = Reader.peek >>= fun k => f (among marks k) := by
  rw [atMark, bind_assoc]
  refine congrArg (Reader.peek >>= ·) (funext fun k => ?_)
  cases k <;> rfl

/-- The kinds at which an item between the brackets of a subscript ends. -/
def EndsDimension (k : Kind) : Prop := k = .mark .comma ∨ k = .mark .bracketClose

theorem EndsDimension.ends {k : Kind} (h : EndsDimension k) : EndsAt 14 k := by
  obtain rfl | rfl := h <;> decide

theorem EndsDimension.ne_colon {k : Kind} (h : EndsDimension k) : k ≠ .mark .colon := by
  obtain rfl | rfl := h <;> nofun

theorem EndsDimension.among {k : Kind} (h : EndsDimension k) :
    among [.comma, .bracketClose] k = true ∧ among [.colon, .comma, .bracketClose] k = true := by
  obtain rfl | rfl := h <;> decide

theorem sliceStep_steady (hg : Steadily n g g') :
    Steady anyKind n 0 (· = .mark .colon) EndsDimension (sliceStep g) (sliceStep g') := by
  refine .against .pure (.popped (l := 0) nofun rfl fun _ _ => ?_) (by decide) fun _ _ hk => hk.ne_colon
  rw [atMark_bind, atMark_bind]
  exact .choose .pure (.bind (hg.test.bound (Nat.sub_le n 1)).everywhere.begins (fun _ => .pure)
    fun _ _ hk => hk.ends) (Nat.le_refl _) (Nat.zero_le _) (fun _ _ hk => hk.among.1) nofun

theorem sliceFrom_steady (hg : Steadily n g g') (start : Nat) (lower : Option Expr) :
    Steady (· = .mark .colon) n 1 (· = .mark .colon) EndsDimension (sliceFrom g start lower)
      (sliceFrom g' start lower) := by
  refine .popped (l := 0) nofun rfl fun _ _ => ?_
  have hg := hg.bound (Nat.sub_le n 1)
  rw [atMark_bind, atMark_bind]
  refine .peek fun k _ => ?_
  cases hk : among [.colon, .comma, .bracketClose] k with
  | true =>
    refine ⟨0, Nat.le_refl _, ?_, fun _ k' hk' => by rw [hk'.among.2]⟩
    simp only [if_true, pure_bind]
    exact .bind_empty (sliceStep_steady hg).everywhere.begins (fun _ => .spanFrom fun _ => .pure)
      fun _ _ => id
  | false =>
    refine ⟨1, Nat.zero_le _, ?_, nofun⟩
    simp only [Bool.false_eq_true, if_false]
    exact .bind hg.test.everywhere.begins.map (fun _ => .bind_empty
      ((sliceStep_steady (hg.bound (Nat.sub_le _ 1))).opens_imp (by rintro _ rfl; decide))
      (fun _ => .spanFrom fun _ => .pure) fun _ _ => id) fun _ _ hk => hk.ends

theorem subscriptItem_steady (hg : Steadily n g g') :
    Steady anyKind n 1 anyKind EndsDimension (subscriptItem g) (subscriptItem g') :=
  .start fun start => .when (sliceFrom_steady hg start none).begins
    (.bind (l := 0) hg.test.everywhere.begins
      (fun e => .against .pure ((sliceFrom_steady (hg.bound (Nat.sub_le n 1)) start (some e)).opens_imp
        (by rintro _ rfl; decide)) (by decide) fun _ _ hk => hk.ne_colon)
      fun _ _ hk => hk.ends)
    (Nat.le_refl _) nofun

/-- The items of a subscript, for which there is always a turn left. -/
def dimensionLoop (g : Grammar) : Nat → Reader (List Expr × Bool)
  | 0 => Reader.unexpected ""
  | turns + 1 => do
    let item ← subscriptItem g
    if (← Reader.peek) != .mark .comma then return ([item], false)
    let _ ← Reader.pop
    if (← Reader.peek) == .mark .bracketClose then return ([item], true)
    let (items, _) ← dimensionLoop g turns
    return (item :: items, true)

theorem dimensionLoop_steady (hg : Steadily n g g') {turns k : Nat} (hn : n ≤ k) :
    Steady anyKind n 1 anyKind (· = .mark .bracketClose) (dimensionLoop g turns)
      (subscriptLoop g' k) := by
  induction turns generalizing n k with
  | zero => exact .turn (fun _ _ => .unexpected) hn
  | succ turns ih =>
    refine .turn (fun turns' hn => ?_) hn
    have hloop := ih (hg.bound (m := n - 1 - 1) (by omega)) (k := turns') (by omega)
    refine .bind (l := 0) (subscriptItem_steady hg) (fun _ => ?_) (by rintro - _ rfl; exact .inr rfl)
    refine .against .pure (.popped (l := 0) nofun (.inl rfl) fun _ _ => ?_) (by decide)
      (by rintro - _ rfl; nofun)
    exact .upTo .pure (hloop.everywhere.bind (fun _ => .pure) fun _ _ => id)

/-- What stands between the brackets of a subscript, with turns enough. -/
def dimensions (g : Grammar) : Reader Expr := do
  let start ← Reader.start
  let (items, comma) ← dimensionLoop g ((← Reader.remaining) + 1)
  match items, comma with
  | [e], false => return e
  | _, _ =>
    let span ← spanFrom start
    return if items.any Expr.isSlice then .extSlice span items else .tuple span items

/-- An item takes a token, so no turn is missing. -/
theorem subscriptLoop_eq (hg : Steadily n g g') {turns : Nat} {c : Cursor}
    (hturns : c.rest.length < turns) : subscriptLoop g turns c = dimensionLoop g turns c := by
  induction turns generalizing c with
  | zero => exact absurd hturns (Nat.not_lt_zero _)
  | succ turns ih =>
    refine bind_congr_run fun e c₁ hc₁ => bind_congr_run fun k c₂ hc₂ => ?_
    obtain ⟨rfl, rfl⟩ := Prod.mk.inj (Except.ok.inj hc₂)
    have hitem := (subscriptItem_steady hg).consumes hc₁
    split
    · rfl
    refine bind_congr_run fun t c₃ hc₃ => bind_congr_run fun k' c₄ hc₄ => ?_
    obtain ⟨rfl, rfl⟩ := Prod.mk.inj (Except.ok.inj hc₃)
    obtain ⟨rfl, rfl⟩ := Prod.mk.inj (Except.ok.inj hc₄)
    have hcomma := c₁.rest_advance
    split
    · rfl
    change (subscriptLoop g turns _ >>= _) = (dimensionLoop g turns _ >>= _)
    rw [ih (by omega)]

theorem subscripts_eq (hg : Steadily n g g') (c : Cursor) : subscripts g c = dimensions g c := by
  change (subscriptLoop g (c.rest.length + 1) c >>= _) = (dimensionLoop g (c.rest.length + 1) c >>= _)
  exact congrArg (· >>= _) (subscriptLoop_eq hg (Nat.lt_succ_self _))

theorem subscripts_steady (hg : Steadily n g g') :
    Steady anyKind n 1 anyKind (· = .mark .bracketClose) (subscripts g) (subscripts g') := by
  refine .of_run (.start fun _ => .remaining fun _ _ _ hm hturns => ?_) (subscripts_eq hg)
  refine (dimensionLoop_steady (hg.bound hm) (Nat.le_succ_of_le hturns)).bind (l := 0) (fun p => ?_)
    fun _ _ => id
  obtain ⟨items, comma⟩ := p
  match items, comma with
  | [e], false => exact .pure
  | [], _ | [_], true | _ :: _ :: _, _ => exact .spanFrom fun _ => .pure

section Pairs

variable {α : Type} {k k₂ : Kind} {f f' : Token → Reader α} {s s' : Reader α} {taken rest : List Token}
  {u v : Token}

/-- A choice for two tokens, which are taken then. -/
def pairOr (k k₂ : Kind) (f : Token → Reader α) (s : Reader α) : Reader α := do
  if (← Reader.peek) == k && (← Reader.peekSecond) == k₂ then
    let t ← Reader.pop
    let _ ← Reader.pop
    f t
  else s

theorem pairOr_pair (hu : u.kind ≠ .endOfInput) (hv : v.kind ≠ .endOfInput) :
    pairOr u.kind v.kind f s ⟨taken, u :: v :: rest⟩ = f u ⟨v :: u :: taken, rest⟩ := by
  change (if (u.kind == u.kind && v.kind == v.kind) = true then _ else s)
    ⟨taken, u :: v :: rest⟩ = _
  rw [if_pos (by simp)]
  change f u (Cursor.advance (Cursor.advance ⟨taken, u :: v :: rest⟩)) = _
  rw [Cursor.advance_cons hu, Cursor.advance_cons hv]

theorem pairOr_other {c : Cursor} (h : ¬ (c.head.kind = k ∧ c.secondKind = k₂)) :
    pairOr k k₂ f s c = s c := by
  change (if (c.head.kind == k && c.secondKind == k₂) = true then _ else s) c = _
  rw [if_neg (by simpa using h)]

theorem pairOr_steady {opens ends : Kind → Prop} {l : Nat} (hk : k ≠ .endOfInput)
    (hk₂ : k₂ ≠ .endOfInput) (hne : k ≠ k₂) (hopens : opens k) (hends : ∀ k', ends k' → k' ≠ k₂)
    (hf : ∀ t, Steady anyKind (n - 1) l anyKind ends (f t) (f' t))
    (hs : Steady pre n 1 opens ends s s') :
    Steady pre n 1 opens ends (pairOr k k₂ f s) (pairOr k k₂ f' s') := by
  intro taken ahead a c hp hr
  by_cases hpair : (Cursor.head ⟨taken, ahead⟩).kind = k ∧ Cursor.secondKind ⟨taken, ahead⟩ = k₂
  · match ahead with
    | [] => exact absurd hpair.1.symm hk
    | [u] => exact absurd (hpair.1.symm.trans hpair.2) hne
    | u :: v :: rest =>
      obtain ⟨rfl, rfl⟩ : u.kind = k ∧ v.kind = k₂ := hpair
      rw [pairOr_pair hk hk₂] at hr
      obtain ⟨ts, rest, rfl, rfl, -, -, hagain⟩ := hf u _ _ _ _ trivial hr
      refine ⟨u :: v :: ts, rest, rfl, by simp, by simp, by rintro _ ⟨⟩; exact hopens, ?_⟩
      intro t rest' ht hlen
      rw [List.cons_append, List.cons_append, pairOr_pair hk hk₂]
      refine (hagain t rest' ht ?_).trans (by simp)
      simp only [List.cons_append, List.length_cons] at hlen
      omega
  · rw [pairOr_other hpair] at hr
    obtain ⟨ts, rest, rfl, rfl, hlength, hfirst, hagain⟩ := hs _ _ _ _ hp hr
    refine ⟨ts, rest, rfl, rfl, hlength, hfirst, fun t rest' ht hlen => ?_⟩
    obtain ⟨u, ts, rfl⟩ := List.exists_cons_of_ne_nil (List.length_pos_iff.1 hlength)
    rw [pairOr_other ?_]
    · exact hagain t rest' ht hlen
    -- the second token is one of those that are taken, or the one at which the reader ends
    · cases ts with
      | nil => exact fun h => hends _ ht h.2
      | cons v ts => exact hpair

end Pairs

/-- The kinds at which an argument of a call ends. -/
def EndsArgument (k : Kind) : Prop := EndsAt 14 k ∧ k ≠ .mark .equal

theorem oneArgument_steady (hg : Steadily n g g') :
    Steady anyKind n 1 anyKind EndsArgument (oneArgument g) (oneArgument g') := by
  have htest := (hg.test.bound (Nat.sub_le n 1)).begins
  refine .when (.popped nofun trivial fun _ _ => htest.bind (fun _ => .pure) fun _ _ hk => hk.1)
    ?_ (Nat.le_refl _) nofun
  refine pairOr_steady nofun nofun nofun trivial (fun _ hk => hk.2)
    (fun _ => htest.bind (fun _ => .pure) fun _ _ hk => hk.1) ?_
  exact .bind (testOrStar_steady hg.test (hg.bound (Nat.sub_le n 1))).everywhere.begins
    (fun _ => .pure) fun _ _ hk => hk.1

theorem trailer_stops {e : Expr} {k : Kind} (hk : EndsAt 1 k) {call index field : Reader Expr} :
    (match k with
      | .mark .parenOpen => call
      | .mark .bracketOpen => index
      | .mark .dot => field
      | _ => (return e : Reader Expr)) = return e := by
  split
  iterate 3 exact absurd hk (by decide)
  rfl

theorem trailerLoop_steady (hg : Steadily (n - 1) g g') {turns k : Nat} (hn : n ≤ k)
    (e : Expr) :
    Steady anyKind n 0 (EndsAt 0) (EndsAt 1) (trailerLoop g turns e) (trailerLoop g' k e) := by
  induction turns generalizing n k e with
  | zero =>
    exact .turn (f := fun turns => trailerLoop g' turns e)
      (fun _ _ => .pure_peek fun k hk => trailer_stops hk) hn
  | succ turns ih =>
    refine .turn (f := fun turns => trailerLoop g' turns e) (fun turns' hn => .peek fun k _ => ?_) hn
    have hloop {m : Nat} (hm : m ≤ n - 1) (e : Expr) :=
      (ih (hg.bound (m := m - 1) (by omega)) (k := turns') (by omega) e).begins
    split
    · refine ⟨1, Nat.zero_le _, .popped (l := 1) nofun (by decide) fun _ _ => ?_, nofun⟩
      refine .remaining fun m turns'' turns' hm hturns => ?_
      rw [argumentLoop_eq, argumentLoop_eq]
      have harguments : Steady anyKind m 0 anyKind (· = .mark .parenClose)
          (itemLoop (oneArgument g) (.mark .parenClose) (turns'' + 1))
          (itemLoop (oneArgument g') (.mark .parenClose) (turns' + 1)) :=
        itemLoop_steady (oneArgument_steady (hg.bound hm)) ⟨by decide, nofun⟩ ⟨by decide, nofun⟩
          (Nat.le_succ_of_le hturns)
      exact .bind_empty harguments.map (fun as => .expect nofun ⟨trivial, rfl⟩ fun t _ =>
        hloop ((Nat.sub_le m 1).trans hm) _) nofun
    · refine ⟨1, Nat.zero_le _, .popped (l := 1) nofun (by decide) fun _ _ => ?_, nofun⟩
      exact (subscripts_steady hg).bind
        (fun i => .expect nofun rfl fun t _ => hloop (by omega) _) nofun
    · refine ⟨1, Nat.zero_le _, .popped (l := 1) nofun (by decide) fun _ _ => ?_, nofun⟩
      exact .expect nofun trivial fun t _ => hloop (by omega) _
    · exact ⟨0, Nat.le_refl _, .pure, fun _ k' hk' => trailer_stops hk'⟩

theorem atomExpr_steady (hg : Steadily (n - 1) g g') :
    Steady anyKind n 1 (OpensAt 0) (EndsAt 1) (atomExpr g) (atomExpr g') :=
  (atom_steady hg).bind (fun e => .remaining fun _ _ _ hm hturns =>
    trailerLoop_steady (hg.bound (by omega)) hturns e) fun _ _ hk => hk.mono (by decide)

/-- Nothing goes on with an expression at the looseness of a sign. -/
theorem endsAt_sign {k : Kind} (h : EndsAt 2 k) : EndsAt 3 k := by
  unfold EndsAt reach at *
  split at h <;> simp_all

theorem power_steady (hg : Steadily (n - 1) g g') :
    Steady anyKind n 1 (OpensAt 0) (EndsAt 2) (power g) (power g') :=
  (atomExpr_steady hg).bind (fun e => .against .pure (.popped nofun (by decide) fun _ _ =>
    (hg.factor.bound (by omega)).begins.bind (fun _ => .pure) fun _ _ hk => endsAt_sign hk) (by decide)
      fun _ _ hk => hk.ne (by decide)) fun _ _ hk => hk.mono (by decide)

theorem factorRule_steady (hg : Steadily (n - 1) g g') :
    Steady anyKind n 1 (OpensAt 3) (EndsAt 3) (factorRule g) (factorRule g') := by
  refine .peek fun k _ => ⟨1, Nat.le_refl _, ?_, nofun⟩
  cases hop : unaryOperator? k with
  | none =>
    exact (power_steady hg).everywhere.mono (Nat.le_refl _) (Nat.le_refl _) (fun _ => id)
      (fun _ hk => Nat.le_trans hk (by decide)) fun _ hk => hk.mono (by decide)
  | some op =>
    exact .popped (by rintro rfl; cases hop) (by rw [OpensAt, unaryOperator_entry hop]) fun _ _ =>
      hg.factor.begins.bind (fun _ => .pure) fun _ _ => id

theorem binaryAt_steady (hg : Steadily (n - 1) g g') : ∀ k ≤ 6,
    Steady anyKind n 1 (OpensAt (k + 3)) (EndsAt (k + 3)) (binaryAt g k) (binaryAt g' k)
  | 0, _ => factorRule_steady hg
  | k + 1, hk => (binaryLevel_steady (levelOperators_looseness (k + 4)) (Nat.succ_pos _)
      (binaryAt_steady hg k (by omega))).opens_imp fun _ hk => Nat.le_succ_of_le hk

section Comparisons

variable {taken ahead rest : List Token} {op : Operator} {width : Nat}

/-- A comparison has one token, or two different ones. -/
theorem comparison_width {c : Cursor} (h : comparison? c = some (op, width)) :
    c.head.kind ≠ .endOfInput ∧ reach c.head.kind = 10 ∧
      (width = 1 ∨ width = 2 ∧ reach c.secondKind = 10 ∧ c.secondKind ≠ c.head.kind) := by
  unfold comparison? at h
  split at h
  case h_8 hk =>
    obtain ⟨hsecond, h⟩ := Option.ite_none_right_eq_some.1 h
    cases h
    rw [hk, beq_iff_eq.1 hsecond]
    exact ⟨nofun, rfl, .inr ⟨rfl, rfl, nofun⟩⟩
  case h_9 hk =>
    split at h
    · rename_i hsecond
      cases h
      rw [hk, beq_iff_eq.1 hsecond]
      exact ⟨nofun, rfl, .inr ⟨rfl, rfl, nofun⟩⟩
    · cases h
      rw [hk]
      exact ⟨nofun, rfl, .inl rfl⟩
  case h_10 => cases h
  all_goals
    rename_i hk
    cases h
    rw [hk]
    exact ⟨nofun, rfl, .inl rfl⟩

theorem comparison_stops_at {t : Token} (h : EndsAt 10 t.kind) :
    comparison? ⟨taken, t :: rest⟩ = none := by
  have hk : (Cursor.head ⟨taken, t :: rest⟩).kind = t.kind := rfl
  unfold EndsAt at h
  unfold comparison?
  rw [hk]
  split <;> first | rfl | (rename_i hk'; rw [hk'] at h; exact absurd h (by decide))

/-- The comparison that starts with two tokens does not depend on what stands around them. -/
theorem comparison_again {t t₂ : Token} {taken' rest' : List Token} :
    comparison? ⟨taken, t :: t₂ :: rest⟩ = comparison? ⟨taken', t :: t₂ :: rest'⟩ := rfl

/-- What a comparison goes on with, behind its tokens. -/
def comparing {α : Type} (f : Operator → Reader α) (s : Reader α) : Reader α := do
  match comparison? (← get) with
  | none => s
  | some (op, width) =>
    let _ ← Reader.pop
    if width == 2 then let _ ← Reader.pop
    f op

theorem comparing_none {α : Type} {f : Operator → Reader α} {s : Reader α} {c : Cursor}
    (h : comparison? c = none) : comparing f s c = s c := by
  change (match comparison? c with | none => s | some (op, width) => _) c = _
  rw [h]

theorem comparing_one {α : Type} {f : Operator → Reader α} {s : Reader α} {c : Cursor}
    (h : comparison? c = some (op, 1)) : comparing f s c = f op c.advance := by
  change (match comparison? c with | none => s | some (op, width) => _) c = _
  rw [h]
  rfl

theorem comparing_two {α : Type} {f : Operator → Reader α} {s : Reader α} {c : Cursor}
    (h : comparison? c = some (op, 2)) : comparing f s c = f op c.advance.advance := by
  change (match comparison? c with | none => s | some (op, width) => _) c = _
  rw [h]
  rfl

theorem comparing_steady {α : Type} {f f' : Operator → Reader α} {a : α} {ends : Kind → Prop}
    (hends : ∀ k, ends k → EndsAt 10 k)
    (hf : ∀ op, Steady anyKind (n - 1) 1 anyKind ends (f op) (f' op)) :
    Steady anyKind n 0 (EndsAt 9) ends (comparing f (pure a)) (comparing f' (pure a)) := by
  intro taken ahead b c _ hr
  cases hcmp : comparison? ⟨taken, ahead⟩ with
  | none =>
    rw [comparing_none hcmp] at hr
    obtain ⟨rfl, rfl⟩ := Prod.mk.inj (Except.ok.inj hr)
    exact ⟨[], ahead, rfl, rfl, Nat.le_refl _, nofun, fun t rest' ht _ =>
      comparing_none (comparison_stops_at (hends _ ht))⟩
  | some p =>
    obtain ⟨op, width⟩ := p
    obtain ⟨hend, hreach, hwidth⟩ := comparison_width hcmp
    rcases ahead with _ | ⟨t, rest⟩
    · exact absurd rfl hend
    have ht : t.kind ≠ .endOfInput := hend
    have hten : reach t.kind = 10 := hreach
    have hopens : EndsAt 9 t.kind := by
      unfold EndsAt
      omega
    obtain rfl | ⟨rfl, hreach₂, hne⟩ := hwidth
    · rw [comparing_one hcmp, Cursor.advance_cons ht] at hr
      obtain ⟨ts, rest, rfl, rfl, hlength, -, hagain⟩ := hf op _ _ _ _ trivial hr
      refine ⟨t :: ts, rest, rfl, by simp, Nat.zero_le _, by rintro _ ⟨⟩; exact hopens, ?_⟩
      intro u rest' hu hlen
      obtain ⟨t₂, ts, rfl⟩ := List.exists_cons_of_ne_nil (List.length_pos_iff.1 hlength)
      simp only [List.cons_append, List.length_cons] at hlen hagain
      rw [List.cons_append, List.cons_append, comparing_one (comparison_again.trans hcmp),
        Cursor.advance_cons ht]
      exact (hagain u rest' hu (by omega)).trans (by simp)
    · rcases rest with _ | ⟨t₂, rest⟩
      · exact absurd rfl hne
      have hten₂ : reach t₂.kind = 10 := hreach₂
      have ht₂ : t₂.kind ≠ .endOfInput := by
        intro h
        rw [h] at hten₂
        cases hten₂
      rw [comparing_two hcmp, Cursor.advance_cons ht, Cursor.advance_cons ht₂] at hr
      obtain ⟨ts, rest, rfl, rfl, hlength, -, hagain⟩ := hf op _ _ _ _ trivial hr
      refine ⟨t :: t₂ :: ts, rest, rfl, by simp, Nat.zero_le _, by rintro _ ⟨⟩; exact hopens, ?_⟩
      intro u rest' hu hlen
      simp only [List.cons_append, List.length_cons] at hlen
      rw [List.cons_append, List.cons_append, comparing_two (comparison_again.trans hcmp),
        Cursor.advance_cons ht, Cursor.advance_cons ht₂]
      exact (hagain u rest' hu (by omega)).trans (by simp)

end Comparisons

theorem comparisonLoop_steady (hg : Steadily (n - 1) g g') {turns k : Nat} (hn : n ≤ k) :
    Steady anyKind n 0 (EndsAt 9) (EndsAt 10) (comparisonLoop g turns) (comparisonLoop g' k) := by
  induction turns generalizing n k with
  | zero =>
    refine .turn (fun _ _ => ?_) hn
    intro taken ahead a c _ hr
    obtain ⟨rfl, rfl⟩ := Prod.mk.inj (Except.ok.inj hr)
    exact ⟨[], ahead, rfl, rfl, Nat.le_refl _, nofun, fun t rest' ht _ =>
      comparing_none (comparison_stops_at ht)⟩
  | succ turns ih =>
    refine .turn (fun turns' hn => ?_) hn
    have hloop := ih (n := n - 1 - 1) (hg.bound (by omega)) (k := turns') (by omega)
    exact comparing_steady (fun _ => id) fun op => hg.bitOr.begins.bind
      (fun _ => hloop.bind_empty (fun _ => .pure) fun _ _ => id) fun _ _ hk => hk.mono (by decide)

theorem comparison_steady (hg : Steadily (n - 1) g g') :
    Steady anyKind n 1 (OpensAt 9) (EndsAt 10) (comparison g) (comparison g') := by
  refine .bind (l := 0) (binaryAt_steady hg 6 (Nat.le_refl _)) (fun left => ?_)
    fun _ _ hk => hk.mono (by decide)
  refine .remaining fun m _ _ hm hturns => ?_
  refine .bind_empty (l := 0) (comparisonLoop_steady (hg.bound (by omega)) hturns) (fun rest => ?_)
    fun _ _ => id
  split <;> exact .pure

theorem notRule_steady (hg : Steadily (n - 1) g g') :
    Steady anyKind n 1 (OpensAt 11) (EndsAt 11) (notRule g) (notRule g') := by
  have hcomparison : Steady (fun k => anyKind k ∧ k ≠ .word .not_) n 1 (OpensAt 9) (EndsAt 10)
      (comparison g) (comparison g') := (comparison_steady hg).everywhere
  exact .against (hcomparison.mono (Nat.le_refl _) (Nat.le_refl _) (fun _ => id)
      (fun _ hk => Nat.le_trans hk (by decide)) fun _ hk => hk.mono (by decide))
    (.popped nofun (by decide) fun _ _ => hg.notTest.begins.bind (fun _ => .pure) fun _ _ => id)
    (Nat.le_refl _) nofun

theorem connectiveLoop_steady {word : Word} {operand operand' : Reader Expr} {opens ends : Kind → Prop}
    (hoperand : Steady anyKind (n - 1) 1 opens ends operand operand') (hword : ends (.word word))
    {turns k : Nat} (hn : n ≤ k) :
    Steady anyKind n 0 ends (fun k => ends k ∧ k ≠ .word word) (connectiveLoop word operand turns)
      (connectiveLoop word operand' k) := by
  induction turns generalizing n k with
  | zero => exact .turn (fun _ _ => .pure_against fun _ hk => hk.2) hn
  | succ turns ih =>
    refine .turn (fun turns' hn => ?_) hn
    have hloop := ih (n := n - 1 - 1) (hoperand.bound (by omega)) (k := turns') (by omega)
    exact .against .pure (.popped nofun hword fun _ _ => hoperand.begins.bind
      (fun _ => hloop.bind_empty (fun _ => .pure) fun _ _ => id) fun _ _ hk => hk.1)
      (by decide) fun _ _ hk => hk.2

theorem connective_steady {word : Word} {op : Operator} {operand operand' : Reader Expr}
    {opens ends : Kind → Prop} (hoperand : Steady anyKind n 1 opens ends operand operand')
    (hword : ends (.word word)) :
    Steady anyKind n 1 opens (fun k => ends k ∧ k ≠ .word word) (connective word op operand)
      (connective word op operand') := by
  refine .bind (l := 0) hoperand (fun first => ?_) fun _ _ hk => hk.1
  refine .remaining fun m _ _ hm hturns => ?_
  refine .bind_empty (l := 0) (connectiveLoop_steady (hoperand.bound (by omega)) hword hturns)
    (fun others => ?_) fun _ _ => id
  split <;> exact .pure

theorem andRule_steady (hg : Steadily (n - 1) g g') :
    Steady anyKind n 1 (OpensAt 11) (EndsAt 12) (connective .and_ .and (notRule g))
      (connective .and_ .and (notRule g')) :=
  (connective_steady (notRule_steady hg) (by decide)).ends_imp fun _ hk =>
    ⟨hk.mono (by decide), hk.ne (by decide)⟩

theorem orRule_steady (hg : Steadily (n - 1) g g') :
    Steady anyKind n 1 (OpensAt 11) (EndsAt 13) (orRule g) (orRule g') :=
  (connective_steady (andRule_steady hg) (by decide)).ends_imp fun _ hk =>
    ⟨hk.mono (by decide), hk.ne (by decide)⟩

theorem lambdaRule_steady (hg : Steadily (n - 1) g g') :
    Steady (· = .word .lambda_) n 1 (OpensAt 14) (EndsAt 14) (lambdaRule g) (lambdaRule g') :=
  .popped nofun (by decide) fun _ _ =>
    .bind_empty (params_steady hg ⟨by decide, nofun, nofun⟩) (fun _ => .expect nofun ⟨trivial, rfl⟩
      fun _ _ => .bind (hg.test.bound (Nat.sub_le _ 1)).begins (fun _ => .pure) fun _ _ => id) nofun

theorem testRule_steady (hg : Steadily (n - 1) g g') :
    Steady anyKind n 1 (OpensAt 14) (EndsAt 14) (testRule g) (testRule g') := by
  have hor : Steady (fun k => anyKind k ∧ k ≠ .word .lambda_) n 1 (OpensAt 14) (EndsAt 13) (orRule g)
      (orRule g') := (orRule_steady hg).everywhere.opens_imp fun _ hk => Nat.le_trans hk (by decide)
  refine .when (lambdaRule_steady hg) (.bind (l := 0) hor (fun body => ?_)
    fun _ _ hk => hk.mono (by decide)) (Nat.le_refl _) nofun
  refine .against .pure (.popped (l := 1) nofun (by decide) fun _ _ => ?_) (by decide)
    fun _ _ hk => hk.ne (by decide)
  exact .bind (hg.orTest.bound (Nat.sub_le _ 1)).begins (fun _ => .expect nofun (by decide) fun _ _ =>
    .bind (hg.test.bound (by omega)).begins (fun _ => .pure) fun _ _ => id) nofun

theorem testListRule_steady (hg : Steadily (n - 1) g g') :
    Steady anyKind n 1 OpensItem EndsList (testListRule g) (testListRule g') := by
  refine .bind (l := 0) (testOrStar_steady (testRule_steady hg) hg) (fun first => ?_)
    fun _ _ hk => hk.1.mono (by decide)
  refine .against .pure (.remaining_succ (by rintro _ rfl; nofun) fun m _ _ hm hturns => ?_)
    (Nat.zero_le _) fun _ _ hk => hk.1.ne (by decide)
  rw [testListLoop_eq, testListLoop_eq]
  have hitem := testOrStar_steady (hg.test.bound hm) (hg.bound (m := m - 1) (by omega))
  refine .bind (l := 0) ((tailLoop_some hitem (by decide) hturns).opens_imp ?_)
    (fun _ => .spanFrom fun _ => .pure) fun _ k hk => ?_
  · rintro _ rfl
    decide
  · exact ⟨hk.1.mono (by decide), hk.1.ne (by decide), by simp [hk.2]⟩

/-- Every rule does the same in front of a token at which it ends. -/
theorem ruleAt_steady (hg : Steadily (n - 1) g g') : ∀ {p : Nat}, p ≤ 14 →
    Steady anyKind n 1 (OpensAt p) (EndsAt p) (ruleAt g p) (ruleAt g' p)
  | 0, _ => atom_steady hg
  | 1, _ => (atomExpr_steady hg).opens_imp fun _ hk => Nat.le_trans hk (by decide)
  | 2, _ => (power_steady hg).opens_imp fun _ hk => Nat.le_trans hk (by decide)
  | 3, _ => binaryAt_steady hg 0 (by decide)
  | 4, _ => binaryAt_steady hg 1 (by decide)
  | 5, _ => binaryAt_steady hg 2 (by decide)
  | 6, _ => binaryAt_steady hg 3 (by decide)
  | 7, _ => binaryAt_steady hg 4 (by decide)
  | 8, _ => binaryAt_steady hg 5 (by decide)
  | 9, _ => binaryAt_steady hg 6 (by decide)
  | 10, _ => (comparison_steady hg).opens_imp fun _ hk => Nat.le_trans hk (by decide)
  | 11, _ => notRule_steady hg
  | 12, _ => (andRule_steady hg).opens_imp fun _ hk => Nat.le_trans hk (by decide)
  | 13, _ => (orRule_steady hg).opens_imp fun _ hk => Nat.le_trans hk (by decide)
  | 14, _ => testRule_steady hg

theorem level_steady (N : Nat) : ∀ {n m : Nat}, n ≤ m → Steadily n (level N) (level m) := by
  induction N with
  | zero => exact fun _ => ⟨.unexpected, .unexpected, .unexpected, .unexpected, .unexpected, .unexpected⟩
  | succ N ih =>
    intro n m hn
    cases m with
    | zero =>
      obtain rfl := Nat.le_zero.1 hn
      have hg : Steadily (0 - 1) (level N) (level 0) := ih (Nat.le_refl _)
      exact ⟨(ruleAt_steady hg (p := 14) (by decide)).vacuous,
        (ruleAt_steady hg (p := 13) (by decide)).vacuous,
        (ruleAt_steady hg (p := 11) (by decide)).vacuous,
        (ruleAt_steady hg (p := 9) (by decide)).vacuous,
        (ruleAt_steady hg (p := 3) (by decide)).vacuous, (testListRule_steady hg).vacuous⟩
    | succ m =>
      have hg : Steadily (n - 1) (level N) (level m) := ih (by omega)
      exact ⟨ruleAt_steady hg (p := 14) (by decide), ruleAt_steady hg (p := 13) (by decide),
        ruleAt_steady hg (p := 11) (by decide), ruleAt_steady hg (p := 9) (by decide),
        ruleAt_steady hg (p := 3) (by decide), testListRule_steady hg⟩


end Expressions

end Grammar

end Hoist.Surface
