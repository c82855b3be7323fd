import Hoist.Proofs.Surface.Alike
import Hoist.Proofs.Surface.Trailers
import Hoist.Surface.Grammar.Statement

/-!
# Trees that do not depend on places

The rules of the grammar read the same trees, up to their spans, from the same tokens, wherever these
stand in their texts.
-/

namespace Hoist.Surface

theorem numberValue_agree (t : Token) (n : Nat) :
    Agree id (numberValue t) (numberValue { t with start := n }) := by
  simp only [numberValue]
  split
  · exact .results rfl
  · exact .faults

theorem unescape_agree (cs : List Char) (n n' : Nat) : Agree id (unescape n cs) (unescape n' cs) := by
  fun_induction unescape n cs generalizing n' with
  | case1 n => exact .results rfl
  | case2 n => exact .faults
  | case3 n c rest hc ih =>
    rw [unescape, if_pos hc]
    exact ih _
  | case4 n c rest hc x hx ih =>
    rw [unescape, if_neg hc, hx]
    exact (ih _).bind fun a a' h => .results (congrArg (x :: ·) h)
  | case5 n c rest hc hx =>
    rw [unescape, if_neg hc, hx]
    exact .faults
  | case6 n c rest hlone hpair ih =>
    rw [unescape]
    · exact (ih _).bind fun a a' h => .results (congrArg (c :: ·) h)
    · exact hlone
    · exact hpair

theorem stringValue_agree (t : Token) (n : Nat) :
    Agree id (stringValue t) (stringValue { t with start := n }) := unescape_agree _ _ _

/-- The last of two lists that look the same. -/
theorem getLast?_alike {α β : Type} {view : α → β} {as as' : List α} (h : as.map view = as'.map view) :
    as.getLast? = none ∧ as'.getLast? = none ∨
      ∃ a a', as.getLast? = some a ∧ as'.getLast? = some a' ∧ view a = view a' := by
  have hlast : as.getLast?.map view = as'.getLast?.map view := by
    rw [← List.getLast?_map, ← List.getLast?_map, h]
  cases ha : as.getLast? with
  | none =>
    rw [ha] at hlast
    exact .inl ⟨rfl, Option.map_eq_none_iff.1 hlast.symm⟩
  | some a =>
    rw [ha] at hlast
    obtain ⟨a', ha', hview⟩ := Option.map_eq_some_iff.1 hlast.symm
    exact .inr ⟨a, a', rfl, ha', hview.symm⟩

namespace Grammar

/-- The rules that other rules refer to read the same wherever the tokens stand. -/
structure Unplaced (g : Grammar) : Prop where
  test : Alike Expr.unplaced g.test g.test
  orTest : Alike Expr.unplaced g.orTest g.orTest
  notTest : Alike Expr.unplaced g.notTest g.notTest
  bitOr : Alike Expr.unplaced g.bitOr g.bitOr
  factor : Alike Expr.unplaced g.factor g.factor
  testList : Alike Expr.unplaced g.testList g.testList

variable {g : Grammar} {operand : Reader Expr} {close : Kind} {turns : Nat} {e e' : Expr}

theorem leftFold_alike {operators : List Operator} (hoperand : Alike Expr.unplaced operand operand) :
    ∀ turns e e', e.unplaced = e'.unplaced →
      Alike Expr.unplaced (leftFold operators operand turns e) (leftFold operators operand turns e')
  | 0, _, _, he => .pure he
  | turns + 1, e, e', he => by
    refine .peek fun k => ?_
    split
    · exact .pure he
    · refine .ite (.pure he) (.pop fun _ _ => hoperand.bind fun x x' hx => ?_)
      exact leftFold_alike hoperand turns _ _ (by simp [he, hx])

theorem binaryLevel_alike (operators : List Operator) (hoperand : Alike Expr.unplaced operand operand) :
    Alike Expr.unplaced (binaryLevel operators operand) (binaryLevel operators operand) :=
  hoperand.bind fun _ _ he => .remaining fun n => leftFold_alike hoperand n _ _ he

theorem param_alike : Alike Param.unplaced param param :=
  .expect fun _ _ => .pure rfl

theorem defaultValue_alike (hg : g.Unplaced) :
    Alike (Option.map Expr.unplaced) (defaultValue? g) (defaultValue? g) :=
  .peek fun _ => .ite (.pure rfl) (.pop fun _ _ => hg.test.bind fun _ _ he => .pure (by simp [he]))

theorem paramsUnplaced_eq (ps : Params Expr) : paramsUnplaced ps =
    ⟨ps.positional.map Param.unplaced, ps.vararg?.map Param.unplaced,
      ps.keywordOnly.map Param.unplaced, ps.kwarg?.map Param.unplaced, ps.defaults.map Expr.unplaced,
      ps.keywordDefaults.map Expr.unplaced⟩ := by
  cases ps
  simp [paramsUnplaced]

theorem toList_alike {o o' : Option Expr} (h : o.map Expr.unplaced = o'.map Expr.unplaced) :
    o.toList.map Expr.unplaced = o'.toList.map Expr.unplaced := by
  rw [← Option.toList_map, ← Option.toList_map, h]

theorem oneParam_alike (hg : g.Unplaced) {ps ps' : Params Expr} (keywordOnly : Bool)
    (hps : paramsUnplaced ps = paramsUnplaced ps') :
    Alike (Prod.map paramsUnplaced id) (oneParam g ps keywordOnly) (oneParam g ps' keywordOnly) := by
  simp only [paramsUnplaced_eq, Params.mk.injEq] at hps
  refine .peek fun k => ?_
  split
  · refine .pop fun _ _ => .ite .refused (.peek fun _ => .ite ?_ ?_)
    · exact param_alike.bind fun _ _ hp => .pure (by simp [paramsUnplaced_eq, hps, hp])
    · exact .pure (by simp [paramsUnplaced_eq, hps])
  · exact .pop fun _ _ => param_alike.bind fun _ _ hp => .pure (by simp [paramsUnplaced_eq, hps, hp])
  · refine param_alike.bind fun _ _ hp => (defaultValue_alike hg).bind fun _ _ hv => ?_
    have hv := toList_alike hv
    exact .ite (.pure (by simp [paramsUnplaced_eq, hps, hp, hv]))
      (.pure (by simp [paramsUnplaced_eq, hps, hp, hv]))

theorem paramLoop_alike (hg : g.Unplaced) (close : Kind) : ∀ turns ps ps' keywordOnly,
    paramsUnplaced ps = paramsUnplaced ps' →
      Alike paramsUnplaced (paramLoop g close turns ps keywordOnly)
        (paramLoop g close turns ps' keywordOnly)
  | 0, _, _, _, hps => .pure hps
  | turns + 1, ps, ps', keywordOnly, hps => by
    refine .peek fun _ => .ite (.pure hps) ((oneParam_alike hg keywordOnly hps).bind ?_)
    rintro ⟨ps, keywordOnly⟩ ⟨ps', keywordOnly'⟩ h
    obtain ⟨hps, rfl : keywordOnly = keywordOnly'⟩ := Prod.mk.inj h
    refine .peek fun _ => .ite (.pure hps) (.expect fun _ _ => ?_)
    have hkwarg : ps.kwarg?.isSome = ps'.kwarg?.isSome := by
      simp only [paramsUnplaced_eq, Params.mk.injEq] at hps
      simpa using congrArg Option.isSome hps.2.2.2.1
    dsimp only
    rw [hkwarg]
    exact .ite (.require (paramLoop_alike hg close turns _ _ _ hps))
      (paramLoop_alike hg close turns _ _ _ hps)

theorem params_alike (hg : g.Unplaced) (close : Kind) :
    Alike paramsUnplaced (params g close) (params g close) :=
  .remaining fun _ => paramLoop_alike hg close _ _ _ _ rfl

theorem targetLoop_alike (hg : g.Unplaced) : ∀ turns,
    Alike (List.map Expr.unplaced) (targetLoop g turns) (targetLoop g turns)
  | 0 => .pure rfl
  | turns + 1 =>
    .peek fun _ => .ite (.pure rfl) (.pop fun _ _ => .peek fun _ => .ite (.pure rfl)
      (hg.bitOr.bind fun _ _ he => (targetLoop_alike hg turns).bind fun _ _ hes =>
        .pure (by simp [he, hes])))

theorem targetList_alike (hg : g.Unplaced) :
    Alike Expr.unplaced (targetListWith g.bitOr g) (targetListWith g.bitOr g) :=
  .start fun _ _ => hg.bitOr.bind fun _ _ he => .peek fun _ => .ite (.pure he)
    (.remaining fun n => (targetLoop_alike hg n).bind fun _ _ hes => .spanFrom fun _ _ =>
      .pure (by simp [he, hes]))

theorem conditionLoop_alike (hg : g.Unplaced) : ∀ turns,
    Alike (List.map Expr.unplaced) (conditionLoop g turns) (conditionLoop g turns)
  | 0 => .pure rfl
  | turns + 1 =>
    .peek fun _ => .ite (.pure rfl) (.pop fun _ _ => hg.orTest.bind fun _ _ he =>
      (conditionLoop_alike hg turns).bind fun _ _ hes => .pure (by simp [he, hes]))

theorem generatorLoop_alike (hg : g.Unplaced) : ∀ turns,
    Alike (List.map Generator.unplaced) (generatorLoop g turns) (generatorLoop g turns)
  | 0 => .pure rfl
  | turns + 1 =>
    .peek fun _ => .ite (.pure rfl) (.pop fun _ _ => (targetList_alike hg).bind fun _ _ ht =>
      .expect fun _ _ => hg.orTest.bind fun _ _ hi => .remaining fun n =>
        (conditionLoop_alike hg n).bind fun _ _ hcs => (generatorLoop_alike hg turns).bind
          fun _ _ hgs => .pure (by simp [Generator.unplaced, ht, hi, hcs, hgs]))

theorem yieldExpr_alike (hg : g.Unplaced) : Alike Expr.unplaced (yieldExpr g) (yieldExpr g) :=
  .expect fun _ _ => .peek fun _ => .ite
    (hg.testList.bind fun _ _ hv => .spanFrom fun _ _ => .pure (by simp [hv]))
    (.spanFrom fun _ _ => .pure rfl)

theorem testOrStar_alike {test : Reader Expr} (htest : Alike Expr.unplaced test test)
    (hg : g.Unplaced) : Alike Expr.unplaced (testOrStarWith test g) (testOrStarWith test g) :=
  .peek fun _ => .ite htest
    (.pop fun _ _ => hg.bitOr.bind fun _ _ hv => .pure (by simp [hv]))

theorem elementLoop_alike (hg : g.Unplaced) (close : Kind) : ∀ turns,
    Alike (Prod.map (List.map Expr.unplaced) id) (elementLoop g close turns) (elementLoop g close turns)
  | 0 => .pure rfl
  | turns + 1 => by
    refine .peek fun _ => .ite (.pure rfl) ((testOrStar_alike hg.test hg).bind fun _ _ he => ?_)
    refine .peek fun _ => .ite (.pure (by simp [he])) (.expect fun _ _ => ?_)
    exact (elementLoop_alike hg close turns).bind fun _ _ hes =>
      .pure (by simp [he, (Prod.mk.inj hes).1])

theorem elements_alike (hg : g.Unplaced) (close : Kind) :
    Alike (Prod.map (List.map Expr.unplaced) id) (elements g close) (elements g close) :=
  .remaining fun _ => elementLoop_alike hg close _

theorem stringLoop_alike : ∀ turns, Alike id (stringLoop turns) (stringLoop turns)
  | 0 => .pure rfl
  | turns + 1 =>
    .peek fun _ => .ite (.pure rfl) (.pop fun t n => (Alike.lift (stringValue_agree t n)).bind
      fun s s' hs => (stringLoop_alike turns).bind fun cs cs' hcs => .pure (by simp_all))

/-- One expression without a comma stands for itself. -/
theorem single_alike (es es' : List Expr) (comma : Bool) {many many' : Reader Expr}
    (hmany : Alike Expr.unplaced many many') : es.map Expr.unplaced = es'.map Expr.unplaced →
      Alike Expr.unplaced (match es, comma with | [e], false => return e | _, _ => many)
        (match es', comma with | [e], false => return e | _, _ => many') :=
  match es, es', comma with
  | [e], [e'], false => fun h => .pure (by simpa using h)
  | [e], [e'], true | [], [], _ | _ :: _ :: _, _ :: _ :: _, _ => fun _ => hmany
  | [], _ :: _, _ | _ :: _, [], _ | [_], _ :: _ :: _, _ | _ :: _ :: _, [_], _ => fun h => by simp at h

theorem parenthesised_alike (hg : g.Unplaced) :
    Alike Expr.unplaced (parenthesised g) (parenthesised g) := by
  refine .pop fun _ _ => .peek fun _ => .ite ?_ ?_
  · exact (yieldExpr_alike hg).bind fun _ _ hy => .expect fun _ _ => .pure hy
  · refine (elements_alike hg _).bind ?_
    rintro ⟨es, comma⟩ ⟨es', comma'⟩ h
    obtain ⟨hes, rfl : comma = comma'⟩ := Prod.mk.inj h
    have hes : es.map Expr.unplaced = es'.map Expr.unplaced := hes
    exact .expect fun _ _ => single_alike es es' comma (.pure (by simp [hes])) hes

theorem bracketed_alike (hg : g.Unplaced) : Alike Expr.unplaced (bracketed g) (bracketed g) := by
  refine .pop fun _ _ => .peek fun _ => .ite (.expect fun _ _ => .pure rfl) ?_
  refine (testOrStar_alike hg.test hg).bind fun _ _ he => .peek fun _ => .ite ?_ ?_
  · exact .remaining fun n => (generatorLoop_alike hg n).bind fun _ _ hgs => .expect fun _ _ =>
      .pure (by simp [he, hgs])
  refine .peek fun _ => .ite ?_ ?_
  · exact .expect fun _ _ => .pure (by simp [he])
  · exact .expect fun _ _ => (elements_alike hg _).bind fun _ _ hes => .expect fun _ _ =>
      .pure (by simp [he, (Prod.mk.inj hes).1])

theorem entryLoop_alike (hg : g.Unplaced) : ∀ turns,
    Alike (List.map (Prod.map Expr.unplaced Expr.unplaced)) (entryLoop g turns) (entryLoop g turns)
  | 0 => .pure rfl
  | turns + 1 =>
    .peek fun _ => .ite (.pure rfl) (hg.test.bind fun _ _ hk => .expect fun _ _ =>
      hg.test.bind fun _ _ hv => .peek fun _ => .ite (.pure (by simp [hk, hv])) (.expect fun _ _ =>
        (entryLoop_alike hg turns).bind fun _ _ hes => .pure (by simp [hk, hv, hes])))

theorem braced_alike (hg : g.Unplaced) : Alike Expr.unplaced (braced g) (braced g) :=
  .pop fun _ _ => .remaining fun _ => (entryLoop_alike hg _).bind fun _ _ hes =>
    .expect fun _ _ => .pure (by simp [hes])

theorem atom_alike (hg : g.Unplaced) : Alike Expr.unplaced (atom g) (atom g) := by
  refine .next fun t n => ?_
  dsimp only
  split
  · exact .pop fun _ _ => .pure rfl
  · exact .pop fun _ _ => (Alike.lift (numberValue_agree t n)).bind fun _ _ hv =>
      .pure (congrArg (Expr.constant default) hv)
  · exact .remaining fun n => (stringLoop_alike n).bind fun _ _ hs => .spanFrom fun _ _ =>
      .pure (congrArg (fun cs => Expr.constant default (.string (String.ofList cs))) hs)
  · exact .pop fun _ _ => .pure rfl
  · exact .pop fun _ _ => .pure rfl
  · exact .pop fun _ _ => .pure rfl
  · exact parenthesised_alike hg
  · exact bracketed_alike hg
  · exact braced_alike hg
  · exact .unexpected

theorem atMark_alike (marks : List Mark) : Alike id (atMark marks) (atMark marks) := by
  refine .peek fun _ => ?_
  split
  · exact .pure rfl
  · exact .pure rfl

theorem sliceStep_alike (hg : g.Unplaced) :
    Alike (Option.map Expr.unplaced) (sliceStep g) (sliceStep g) := by
  refine .peek fun _ => .ite (.pure rfl) (.pop fun _ _ => (atMark_alike _).bind ?_)
  rintro b _ rfl
  exact .ite (.pure rfl) (hg.test.bind fun _ _ he => .pure (by simp [he]))

theorem sliceFrom_alike (hg : g.Unplaced) (n n' : Nat) {lower lower' : Option Expr}
    (h : lower.map Expr.unplaced = lower'.map Expr.unplaced) :
    Alike Expr.unplaced (sliceFrom g n lower) (sliceFrom g n' lower') := by
  have hsome : Alike (Option.map Expr.unplaced) (some <$> g.test) (some <$> g.test) :=
    hg.test.bind fun _ _ he => .pure (by simp [he])
  have hrest {upper upper' : Option Expr} (hu : upper.map Expr.unplaced = upper'.map Expr.unplaced) :
      Alike Expr.unplaced
        (do
          let step ← sliceStep g
          return Expr.slice (← spanFrom n) lower upper step)
        (do
          let step ← sliceStep g
          return Expr.slice (← spanFrom n') lower' upper' step) :=
    (sliceStep_alike hg).bind fun _ _ hstep => .spanFrom fun _ _ =>
      .pure (by simp [h, hu, hstep])
  refine .pop fun _ _ => (atMark_alike _).bind ?_
  rintro b _ rfl
  refine .ite ?_ ?_
  · exact hrest rfl
  · exact hsome.bind fun _ _ hu => hrest hu

theorem subscriptItem_alike (hg : g.Unplaced) :
    Alike Expr.unplaced (subscriptItem g) (subscriptItem g) := by
  refine .start fun n n' => .peek fun _ => .ite (sliceFrom_alike hg n n' rfl) ?_
  refine hg.test.bind fun e e' he => .peek fun _ => .ite (.pure he) ?_
  exact sliceFrom_alike hg n n' (by simp [he])

theorem subscriptLoop_alike (hg : g.Unplaced) : ∀ turns,
    Alike (Prod.map (List.map Expr.unplaced) id) (subscriptLoop g turns) (subscriptLoop g turns)
  | 0 => .pure rfl
  | turns + 1 => by
    refine (subscriptItem_alike hg).bind fun e e' he => ?_
    refine .peek fun _ => .ite (.pure (by simp [he])) (.pop fun _ _ => ?_)
    refine .peek fun _ => .ite (.pure (by simp [he])) ?_
    exact (subscriptLoop_alike hg turns).bind fun _ _ hes => .pure (by simp [he, (Prod.mk.inj hes).1])

theorem subscripts_alike (hg : g.Unplaced) : Alike Expr.unplaced (subscripts g) (subscripts g) := by
  refine .start fun n n' => .remaining fun _ => (subscriptLoop_alike hg _).bind ?_
  rintro ⟨es, comma⟩ ⟨es', comma'⟩ h
  obtain ⟨hes, rfl : comma = comma'⟩ := Prod.mk.inj h
  have hes : es.map Expr.unplaced = es'.map Expr.unplaced := hes
  have hmany : Alike Expr.unplaced
      (do
        let span ← spanFrom n
        return if es.any Expr.isSlice then .extSlice span es else .tuple span es)
      (do
        let span ← spanFrom n'
        return if es'.any Expr.isSlice then .extSlice span es' else .tuple span es') := by
    refine .spanFrom fun s s' => .pure ?_
    rw [any_isSlice_unplaced hes]
    split <;> simp [hes]
  exact single_alike es es' comma hmany hes

theorem oneArgument_alike (hg : g.Unplaced) :
    Alike argumentUnplaced (oneArgument g) (oneArgument g) := by
  refine .peek fun _ => .ite ?_ ?_
  · exact .pop fun _ _ => hg.test.bind fun _ _ hv =>
      .pure (by simp [argumentUnplaced, Keyword.unplaced, hv])
  refine .peek fun _ => .peekSecond fun _ => .ite ?_ ?_
  · exact .pop fun _ _ => .pop fun _ _ => hg.test.bind fun _ _ hv =>
      .pure (by simp [argumentUnplaced, Keyword.unplaced, hv])
  · exact (testOrStar_alike hg.test hg).bind fun _ _ he => .pure (by simp [argumentUnplaced, he])

theorem argumentLoop_alike (hg : g.Unplaced) : ∀ turns,
    Alike (List.map argumentUnplaced) (argumentLoop g turns) (argumentLoop g turns)
  | 0 => .pure rfl
  | turns + 1 =>
    .peek fun _ => .ite (.pure rfl) ((oneArgument_alike hg).bind fun _ _ ha => .peek fun _ =>
      .ite (.pure (by simp [ha])) (.expect fun _ _ => (argumentLoop_alike hg turns).bind
        fun _ _ has => .pure (by simp [ha, has])))

theorem trailerLoop_alike (hg : g.Unplaced) : ∀ turns e e', e.unplaced = e'.unplaced →
    Alike Expr.unplaced (trailerLoop g turns e) (trailerLoop g turns e')
  | 0, _, _, he => .pure he
  | turns + 1, e, e', he => by
    refine .peek fun _ => ?_
    split
    · refine .pop fun _ _ => .remaining fun _ => (argumentLoop_alike hg _).bind fun as as' has =>
        .expect fun _ _ => trailerLoop_alike hg turns _ _ ?_
      simp [he, positionals_unplaced, keywords_unplaced, has]
    · exact .pop fun _ _ => (subscripts_alike hg).bind fun _ _ hi => .expect fun _ _ =>
        trailerLoop_alike hg turns _ _ (by simp [he, hi])
    · exact .pop fun _ _ => .expect fun _ _ =>
        trailerLoop_alike hg turns _ _ (by simp [he])
    · exact .pure he

theorem atomExpr_alike (hg : g.Unplaced) : Alike Expr.unplaced (atomExpr g) (atomExpr g) :=
  (atom_alike hg).bind fun _ _ he => .remaining fun n => trailerLoop_alike hg n _ _ he

theorem power_alike (hg : g.Unplaced) : Alike Expr.unplaced (power g) (power g) :=
  (atomExpr_alike hg).bind fun _ _ he => .peek fun _ => .ite (.pure he) (.pop fun _ _ =>
    hg.factor.bind fun _ _ hx => .pure (by simp [he, hx]))

theorem factorRule_alike (hg : g.Unplaced) : Alike Expr.unplaced (factorRule g) (factorRule g) := by
  refine .peek fun _ => ?_
  split
  · exact power_alike hg
  · exact .pop fun _ _ => hg.factor.bind fun _ _ hx => .pure (by simp [hx])

theorem bitOrRule_alike (hg : g.Unplaced) : Alike Expr.unplaced (bitOrRule g) (bitOrRule g) :=
  binaryLevel_alike _ <| binaryLevel_alike _ <| binaryLevel_alike _ <| binaryLevel_alike _ <|
    binaryLevel_alike _ <| binaryLevel_alike _ <| factorRule_alike hg

theorem comparison_eq {c c' : Cursor} (h : c.forms = c'.forms) : comparison? c = comparison? c' := by
  unfold comparison?
  rw [Cursor.head_kind h, Cursor.secondKind_eq h]

theorem comparisonLoop_alike (hg : g.Unplaced) : ∀ turns,
    Alike (List.map (Prod.map id Expr.unplaced)) (comparisonLoop g turns) (comparisonLoop g turns)
  | 0 => .pure rfl
  | turns + 1 => by
    refine .cursor fun c c' hc => ?_
    rw [comparison_eq hc]
    split
    · exact .pure rfl
    · rename_i op width hop
      have hrest : Alike (List.map (Prod.map id Expr.unplaced))
          (do
            let e ← g.bitOr
            return (op, e) :: (← comparisonLoop g turns))
          (do
            let e ← g.bitOr
            return (op, e) :: (← comparisonLoop g turns)) :=
        hg.bitOr.bind fun _ _ he => (comparisonLoop_alike hg turns).bind fun _ _ hes =>
          .pure (by simp [he, hes])
      exact .pop fun _ _ => .ite (.pop fun _ _ => hrest) hrest

theorem comparison_alike (hg : g.Unplaced) : Alike Expr.unplaced (comparison g) (comparison g) := by
  refine (bitOrRule_alike hg).bind fun e e' he => .remaining fun n =>
    (comparisonLoop_alike hg n).bind fun rest rest' hrest => ?_
  rcases getLast?_alike hrest with ⟨h, h'⟩ | ⟨p, p', h, h', -⟩ <;> rw [h, h']
  · exact .pure he
  · exact .pure (by simp [he, hrest])

theorem notRule_alike (hg : g.Unplaced) : Alike Expr.unplaced (notRule g) (notRule g) :=
  .peek fun _ => .ite (comparison_alike hg) (.pop fun _ _ => hg.notTest.bind fun _ _ hx =>
    .pure (by simp [hx]))

theorem connectiveLoop_alike (word : Word) (hoperand : Alike Expr.unplaced operand operand) :
    ∀ turns, Alike (List.map Expr.unplaced) (connectiveLoop word operand turns)
      (connectiveLoop word operand turns)
  | 0 => .pure rfl
  | turns + 1 =>
    .peek fun _ => .ite (.pure rfl) (.pop fun _ _ => hoperand.bind fun _ _ he =>
      (connectiveLoop_alike word hoperand turns).bind fun _ _ hes => .pure (by simp [he, hes]))

theorem connective_alike (word : Word) (op : Operator) (hoperand : Alike Expr.unplaced operand operand) :
    Alike Expr.unplaced (connective word op operand) (connective word op operand) := by
  refine hoperand.bind fun e e' he => .remaining fun n =>
    (connectiveLoop_alike word hoperand n).bind fun es es' hes => ?_
  rcases getLast?_alike hes with ⟨h, h'⟩ | ⟨d, d', h, h', -⟩ <;> rw [h, h']
  · exact .pure he
  · exact .pure (by simp [he, hes])

theorem orRule_alike (hg : g.Unplaced) : Alike Expr.unplaced (orRule g) (orRule g) :=
  connective_alike _ _ (connective_alike _ _ (notRule_alike hg))

theorem lambdaRule_alike (hg : g.Unplaced) : Alike Expr.unplaced (lambdaRule g) (lambdaRule g) :=
  .pop fun _ _ => (params_alike hg _).bind fun _ _ hps => .expect fun _ _ =>
    hg.test.bind fun _ _ hb => .pure (by simp [hps, hb])

theorem testRule_alike (hg : g.Unplaced) : Alike Expr.unplaced (testRule g) (testRule g) := by
  refine .peek fun _ => .ite (lambdaRule_alike hg) ?_
  refine (orRule_alike hg).bind fun _ _ hb => .peek fun _ => .ite (.pure hb) ?_
  exact .pop fun _ _ => hg.orTest.bind fun _ _ ht => .expect fun _ _ => hg.test.bind fun _ _ ho =>
    .pure (by simp [hb, ht, ho])

theorem testListLoop_alike (hg : g.Unplaced) : ∀ turns,
    Alike (List.map Expr.unplaced) (testListLoop g turns) (testListLoop g turns)
  | 0 => .pure rfl
  | turns + 1 => by
    refine .peek fun _ => .ite (.pure rfl) (.pop fun _ _ => .peek fun _ => .ite (.pure rfl) ?_)
    exact (testOrStar_alike hg.test hg).bind fun _ _ he => (testListLoop_alike hg turns).bind
      fun _ _ hes => .pure (by simp [he, hes])

theorem testListRule_alike (hg : g.Unplaced) :
    Alike Expr.unplaced (testListRule g) (testListRule g) := by
  refine (testOrStar_alike (testRule_alike hg) hg).bind fun _ _ he => ?_
  refine .peek fun _ => .ite (.pure he) (.remaining fun n => ?_)
  exact (testListLoop_alike hg n).bind fun _ _ hes => .spanFrom fun _ _ =>
    .pure (by simp [he, hes])

/-- On every level the rules read the same expressions wherever the tokens stand. -/
theorem level_unplaced : ∀ n, (level n).Unplaced
  | 0 => ⟨.unexpected, .unexpected, .unexpected, .unexpected, .unexpected, .unexpected⟩
  | n + 1 =>
    have hg := level_unplaced n
    ⟨testRule_alike hg, orRule_alike hg, notRule_alike hg, bitOrRule_alike hg, factorRule_alike hg,
      testListRule_alike hg⟩

end Grammar

namespace Blocks

/-- The rules that compound statements refer to read the same wherever the tokens stand. -/
structure Unplaced (b : Blocks) : Prop where
  statement : Alike (List.map Stmt.unplaced) b.statement b.statement
  branch : Alike Stmt.unplaced b.branch b.branch

variable {g : Grammar} {b : Blocks}

theorem valueBeforeEnd_alike (hg : g.Unplaced) :
    Alike (Option.map Expr.unplaced) (valueBeforeEnd g) (valueBeforeEnd g) :=
  .peek fun _ => .ite (.pure rfl) (hg.testList.bind fun _ _ he => .pure (by simp [he]))

theorem rightSide_alike (hg : g.Unplaced) : Alike Expr.unplaced (rightSide g) (rightSide g) :=
  .peek fun _ => .ite hg.testList (.pop fun _ _ => (valueBeforeEnd_alike hg).bind fun _ _ hv =>
    .spanFrom fun _ _ => .pure (by simp [hv]))

theorem nameOf_alike : Alike id nameOf nameOf := .expect fun _ _ => .pure rfl

theorem nameLoop_alike : ∀ turns, Alike id (nameLoop turns) (nameLoop turns)
  | 0 => .pure rfl
  | turns + 1 =>
    .peek fun _ => .ite (.pure rfl) (.pop fun _ _ => nameOf_alike.bind fun x x' hx =>
      (nameLoop_alike turns).bind fun xs xs' hxs => .pure (by simp_all))

theorem assignLoop_alike (hg : g.Unplaced) : ∀ turns,
    Alike (List.map Expr.unplaced) (assignLoop g turns) (assignLoop g turns)
  | 0 => .pure rfl
  | turns + 1 =>
    .peek fun _ => .ite (.pure rfl) (.pop fun _ _ => (rightSide_alike hg).bind fun _ _ he =>
      (assignLoop_alike hg turns).bind fun _ _ hes => .pure (by simp [he, hes]))

theorem expressionStatement_alike (hg : g.Unplaced) (n n' : Nat) :
    Alike Stmt.unplaced (expressionStatement g n) (expressionStatement g n') := by
  refine (rightSide_alike hg).bind fun e e' he => .peek fun k => ?_
  split
  · exact .pop fun _ _ => (rightSide_alike hg).bind fun _ _ hv => .spanFrom fun _ _ =>
      .pure (by simp [he, hv])
  · refine .remaining fun n => (assignLoop_alike hg n).bind fun es es' hes => .spanFrom fun _ _ => ?_
    have hinit : es.dropLast.map Expr.unplaced = es'.dropLast.map Expr.unplaced := by
      rw [List.map_dropLast, List.map_dropLast, hes]
    rcases getLast?_alike hes with ⟨h, h'⟩ | ⟨v, v', h, h', hv⟩ <;> rw [h, h']
    · exact .pure (by simp [he])
    · exact .pure (by simp [he, hinit, hv])

theorem simple_alike (hg : g.Unplaced) : Alike Stmt.unplaced (simple g) (simple g) := by
  refine .next fun t n => ?_
  dsimp only
  split
  · exact .pop fun _ _ => (valueBeforeEnd_alike hg).bind fun _ _ hv => .spanFrom fun _ _ =>
      .pure (by simp [hv])
  · exact .pop fun _ _ => .spanFrom fun _ _ => .pure rfl
  · exact .pop fun _ _ => .spanFrom fun _ _ => .pure rfl
  · exact .pop fun _ _ => .spanFrom fun _ _ => .pure rfl
  · exact .pop fun _ _ => (valueBeforeEnd_alike hg).bind fun _ _ hv => .spanFrom fun _ _ =>
      .pure (by simp [hv])
  · exact .pop fun _ _ => nameOf_alike.bind fun x x' hx => .remaining fun n =>
      (nameLoop_alike n).bind fun xs xs' hxs => .spanFrom fun _ _ => .pure (by simp_all)
  · exact .pop fun _ _ => nameOf_alike.bind fun x x' hx => .remaining fun n =>
      (nameLoop_alike n).bind fun xs xs' hxs => .spanFrom fun _ _ => .pure (by simp_all)
  · exact expressionStatement_alike hg _ _

theorem simpleLoop_alike (hg : g.Unplaced) : ∀ turns,
    Alike (List.map Stmt.unplaced) (simpleLoop g turns) (simpleLoop g turns)
  | 0 => .pure rfl
  | turns + 1 => by
    refine (simple_alike hg).bind fun s s' hs => ?_
    refine .peek fun _ => .ite (.pure (by simp [hs])) (.pop fun _ _ => ?_)
    refine .peek fun _ => .ite (.pure (by simp [hs])) ?_
    exact (simpleLoop_alike hg turns).bind fun _ _ hss => .pure (by simp [hs, hss])

theorem simpleLine_alike (hg : g.Unplaced) :
    Alike (List.map Stmt.unplaced) (simpleLine g) (simpleLine g) :=
  .remaining fun _ => (simpleLoop_alike hg _).bind fun _ _ hss => .expect fun _ _ => .pure hss

theorem statementLoop_alike (hb : b.Unplaced) : ∀ turns,
    Alike (List.map Stmt.unplaced) (statementLoop b turns) (statementLoop b turns)
  | 0 => .pure rfl
  | turns + 1 =>
    .peek fun _ => .ite (.pure rfl) (hb.statement.bind fun _ _ hs =>
      (statementLoop_alike hb turns).bind fun _ _ hss => .pure (by simp [hs, hss]))

theorem suite_alike (hg : g.Unplaced) (hb : b.Unplaced) :
    Alike (List.map Stmt.unplaced) (suite g b) (suite g b) :=
  .expect fun _ _ => .peek fun _ => .ite (simpleLine_alike hg) (.pop fun _ _ => .expect fun _ _ =>
    .remaining fun _ => (statementLoop_alike hb _).bind fun _ _ hss => .pop fun _ _ => .pure hss)

theorem optionalSuite_alike (hg : g.Unplaced) (hb : b.Unplaced) (word : Word) :
    Alike (List.map Stmt.unplaced) (optionalSuite g b word) (optionalSuite g b word) :=
  .peek fun _ => .ite (.pure rfl) (.pop fun _ _ => suite_alike hg hb)

theorem functionDef_alike (hg : g.Unplaced) (hb : b.Unplaced) (n n' : Nat) {ds ds' : List Expr}
    (hds : ds.map Expr.unplaced = ds'.map Expr.unplaced) :
    Alike Stmt.unplaced (functionDef g b n ds) (functionDef g b n' ds') :=
  .expect fun _ _ => nameOf_alike.bind fun x x' hx => .expect fun _ _ =>
    (Grammar.params_alike hg _).bind fun _ _ hps => .expect fun _ _ =>
      (suite_alike hg hb).bind fun _ _ hbody => .spanFrom fun _ _ =>
        .pure (by simp [show x = x' from hx, hps, hbody, hds])

theorem branchRule_alike (hg : g.Unplaced) (hb : b.Unplaced) :
    Alike Stmt.unplaced (branchRule g b) (branchRule g b) := by
  refine .pop fun t n => hg.test.bind fun c c' hc => (suite_alike hg hb).bind
    fun body body' hbody => ?_
  have hrest {orelse orelse' : List Stmt} (ho : orelse.map Stmt.unplaced = orelse'.map Stmt.unplaced) :
      Alike Stmt.unplaced (do return Stmt.ifElse (← Grammar.spanFrom t.start) c body orelse)
        (do return Stmt.ifElse (← Grammar.spanFrom n) c' body' orelse') :=
    .spanFrom fun _ _ => .pure (by simp [hc, hbody, ho])
  have hbranch : Alike (List.map Stmt.unplaced) (do return [← b.branch]) (do return [← b.branch]) :=
    hb.branch.bind fun s s' hs => .pure (by simp [hs])
  refine .peek fun _ => .ite ?_ ?_
  · exact hbranch.bind fun _ _ ho => hrest ho
  · exact (optionalSuite_alike hg hb _).bind fun _ _ ho => hrest ho

theorem whileRule_alike (hg : g.Unplaced) (hb : b.Unplaced) :
    Alike Stmt.unplaced (whileRule g b) (whileRule g b) :=
  .expect fun _ _ => hg.test.bind fun _ _ hc => (suite_alike hg hb).bind fun _ _ hbody =>
    (optionalSuite_alike hg hb _).bind fun _ _ ho => .spanFrom fun _ _ =>
      .pure (by simp [hc, hbody, ho])

theorem forRule_alike (hg : g.Unplaced) (hb : b.Unplaced) :
    Alike Stmt.unplaced (forRule g b) (forRule g b) :=
  .expect fun _ _ => (Grammar.targetList_alike hg).bind fun _ _ ht => .expect fun _ _ =>
    hg.testList.bind fun _ _ hi => (suite_alike hg hb).bind fun _ _ hbody =>
      (optionalSuite_alike hg hb _).bind fun _ _ ho => .spanFrom fun _ _ =>
        .pure (by simp [ht, hi, hbody, ho])

theorem handlerHead_alike (hg : g.Unplaced) :
    Alike (Prod.map (Option.map Expr.unplaced) id) (handlerHead g) (handlerHead g) :=
  .peek fun _ => .ite (.pure rfl) (hg.test.bind fun _ _ ht => .peek fun _ =>
    .ite (.pure (by simp [ht])) (.pop fun _ _ => nameOf_alike.bind fun x x' hx =>
      .pure (by simp [ht, show x = x' from hx])))

theorem handlerLoop_alike (hg : g.Unplaced) (hb : b.Unplaced) : ∀ turns,
    Alike (List.map Handler.unplaced) (handlerLoop g b turns) (handlerLoop g b turns)
  | 0 => .pure rfl
  | turns + 1 => by
    refine .peek fun _ => .ite (.pure rfl) (.pop fun _ _ => (handlerHead_alike hg).bind ?_)
    rintro ⟨type, name⟩ ⟨type', name'⟩ h
    obtain ⟨htype, rfl : name = name'⟩ := Prod.mk.inj h
    exact (suite_alike hg hb).bind fun _ _ hbody => .spanFrom fun _ _ =>
      (handlerLoop_alike hg hb turns).bind fun _ _ hhs =>
        .pure (by simp [Handler.unplaced, show type.map Expr.unplaced = _ from htype, hbody, hhs])

theorem tryRule_alike (hg : g.Unplaced) (hb : b.Unplaced) :
    Alike Stmt.unplaced (tryRule g b) (tryRule g b) := by
  refine .expect fun t n => (suite_alike hg hb).bind fun body body' hbody => .remaining fun turns =>
    (handlerLoop_alike hg hb turns).bind fun hs hs' hhs => (optionalSuite_alike hg hb _).bind
      fun orelse orelse' ho => (optionalSuite_alike hg hb _).bind fun final final' hf => ?_
  have hnone : (hs.isEmpty && final.isEmpty) = (hs'.isEmpty && final'.isEmpty) := by
    rw [← List.isEmpty_map (f := Handler.unplaced), hhs, ← List.isEmpty_map (f := Stmt.unplaced), hf,
      List.isEmpty_map, List.isEmpty_map]
  have hrest : Alike Stmt.unplaced
      (do return Stmt.tryExcept (← Grammar.spanFrom t.start) body hs orelse final)
      (do return Stmt.tryExcept (← Grammar.spanFrom n) body' hs' orelse' final') :=
    .spanFrom fun _ _ => .pure (by simp [hbody, hhs, ho, hf])
  rw [hnone]
  exact .ite (.require hrest) hrest

theorem decoratorLoop_alike (hg : g.Unplaced) : ∀ turns,
    Alike (List.map Expr.unplaced) (decoratorLoop g turns) (decoratorLoop g turns)
  | 0 => .pure rfl
  | turns + 1 =>
    .peek fun _ => .ite (.pure rfl) (.pop fun _ _ => hg.test.bind fun _ _ he => .expect fun _ _ =>
      (decoratorLoop_alike hg turns).bind fun _ _ hes => .pure (by simp [he, hes]))

theorem statementRule_alike (hg : g.Unplaced) (hb : b.Unplaced) :
    Alike (List.map Stmt.unplaced) (statementRule g b) (statementRule g b) := by
  have hone {r r' : Reader Stmt} (h : Alike Stmt.unplaced r r') :
      Alike (List.map Stmt.unplaced) (do return [← r]) (do return [← r']) :=
    h.bind fun s s' hs => .pure (by simp [hs])
  refine .next fun t n => ?_
  dsimp only
  split
  · exact .remaining fun turns => (decoratorLoop_alike hg turns).bind fun _ _ hds => .require
      (hone (functionDef_alike hg hb _ _ hds))
  · exact hone (functionDef_alike hg hb _ _ rfl)
  · exact hone (branchRule_alike hg hb)
  · exact hone (whileRule_alike hg hb)
  · exact hone (forRule_alike hg hb)
  · exact hone (tryRule_alike hg hb)
  · exact .unexpected
  · exact simpleLine_alike hg

/-- On every level the rules read the same statements wherever the tokens stand. -/
theorem level_unplaced (hg : g.Unplaced) : ∀ n, (level g n).Unplaced
  | 0 => ⟨.unexpected, .unexpected⟩
  | n + 1 =>
    have hb := level_unplaced hg n
    ⟨statementRule_alike hg hb, branchRule_alike hg hb⟩

theorem moduleLoop_alike (hb : b.Unplaced) : ∀ turns,
    Alike (List.map Stmt.unplaced) (moduleLoop b turns) (moduleLoop b turns)
  | 0 => .pure rfl
  | turns + 1 => by
    refine .peek fun k => ?_
    split
    · exact .pure rfl
    · exact .pop fun _ _ => moduleLoop_alike hb turns
    · exact hb.statement.bind fun _ _ hs => (moduleLoop_alike hb turns).bind fun _ _ hss =>
        .pure (by simp [hs, hss])

end Blocks

/-- Statements are read from the tokens alone: where these stand gets only into the spans. -/
theorem readStatements_alike : Alike (List.map Stmt.unplaced) readStatements readStatements := by
  simp only [readStatements, readGrammar, bind_assoc, pure_bind]
  exact .remaining fun _ => .remaining fun _ => .remaining fun _ =>
    Blocks.moduleLoop_alike (Blocks.level_unplaced (Grammar.level_unplaced _) _) _

end Hoist.Surface
