import Hoist.Proofs.Surface.FramedAtoms

/-!
# The rules frame what they read

What stands behind an atom, and operators between operands, make larger expressions of the one before.
A rule reads the tokens of its expression again in every place, those of each turn of a loop included;
so the span of what it made can be read again as well.
-/

namespace Hoist.Surface

namespace Grammar

section Trailers

variable {g : Grammar} {pre : Token → Prop} {s s' : List Token} {e x : Expr} {t u : Token}
  {ps : List Part}

theorem sliceStep_takes (hg : g.Frames) :
    Takes [] pre (sliceStep g) fun s v => Keeps s (v.toList.map .expr) := by
  refine .against (.pure .nil) (.popped nofun fun t _ hk _ => ?_)
  rw [atMark_bind]
  exact .choose (.pure (.token hk rfl rfl)) (.bind hg.test fun _ _ he => .pure (.cons hk rfl rfl he.keeps))

/-- An item between the brackets of a subscript can be read again if it is no slice. -/
structure Dimension (s : List Token) (e : Expr) : Prop extends Framed s e where
  item : e.isSlice = false → Itemed s e

theorem sliceFrom_takes (hg : g.Frames) {start : Nat} (lower : Option Expr)
    (h : Keeps s (lower.toList.map .expr))
    (hstart : ∀ t, pre t → t.kind.isLayout = false → StartsAt (s ++ [t]) start) :
    Takes s (fun t => pre t ∧ t.kind = .mark .colon) (sliceFrom g start lower) Dimension := by
  refine .popped nofun fun t ht hk _ => ?_
  have hstart := hstart t ht (by rw [hk]; rfl)
  have hrest {s₁ upper} (h₁ : Keeps s₁ (upper.toList.map .expr)) :
      Takes (s ++ [t] ++ s₁) anyToken (do
        let step ← sliceStep g
        return .slice (← spanFrom start) lower upper step) Dimension := by
    refine .bind (sliceStep_takes hg) fun s₂ step h₂ => ?_
    have hs := ((h.append (.token hk rfl rfl)).append h₁).append h₂
    refine .spanFrom (hs.clean.exists_visible (by simp)) fun stop hstop => .pure ?_
    refine ⟨(Formed.whole ((hstart.append s₁).append s₂) hstop ?_).framed hs.clean nofun, nofun⟩
    simpa [Expr.nodes] using hs.holds
  rw [atMark_bind]
  exact .choose (.bind (.pure .nil) fun _ _ h₁ => hrest h₁)
    (.bind (hg.test.map fun _ _ he => he.keeps) fun _ _ h₁ => hrest h₁)

theorem subscriptItem_takes (hg : g.Frames) : Takes [] pre (subscriptItem g) Dimension := by
  refine .start fun u _ => .when ?_ (.bind_head hg.test fun s e he hhead => .against
    (.pure ⟨he.toFramed, fun _ => he.item⟩) ?_)
  · refine sliceFrom_takes hg none .nil ?_
    rintro _ rfl hk
    exact startsAt_cons hk []
  · refine sliceFrom_takes hg (some e) he.keeps fun t _ _ => ?_
    exact (Clean.startsAt he.clean he.ne_nil fun v hv => (hhead v hv).1).append [t]

theorem dimensionLoop_takes (hg : g.Frames) : ∀ {turns pre},
    Takes [] pre (dimensionLoop g turns) fun s p => Series Dimension s p.1 p.2 ∧ s ≠ []
  | 0, _ => .unexpected
  | _ + 1, _ =>
    .bind (subscriptItem_takes hg) fun _ _ he => .against (.pure ⟨.one he, he.ne_nil⟩) (.popped nofun
      fun _ _ hk _ => .when (.pure ⟨.cons he hk .nil, by simp⟩) (.bind (dimensionLoop_takes hg)
        fun _ _ hes => .pure ⟨by simpa using .cons he hk hes.1, by simp⟩))

theorem dimensions_takes (hg : g.Frames) : Takes [] pre (dimensions g) Framed := by
  refine .start fun u _ => .remaining fun _ => .bind_head (dimensionLoop_takes hg) fun s p hp hhead => ?_
  obtain ⟨es, comma⟩ := p
  obtain ⟨hseries, hne⟩ := hp
  have hkeeps := Series.keeps hseries fun _ _ h => h.toFramed
  have hstart := Clean.startsAt hkeeps.clean hne hhead
  cases hseries with
  | nil => exact absurd rfl hne
  | one he => exact .pure he.toFramed
  | @cons s e t ss es b he hk hrest =>
    have hseries := Series.cons he hk hrest
    have hmany : Takes ([] ++ (s ++ t :: ss)) anyToken (do
        let span ← spanFrom u.start
        return if (e :: es).any Expr.isSlice then .extSlice span (e :: es) else .tuple span (e :: es))
        Framed := by
      refine .spanFrom (hkeeps.clean.exists_visible hne) fun stop hstop => ?_
      split
      · exact .pure ((Formed.whole hstart hstop hkeeps.holds).framed hkeeps.clean nofun)
      · rename_i hslice
        refine .pure (Series.framed (hseries.imp fun s e he h => ⟨h.toFramed, h.item ?_⟩) hstart hstop)
        simpa using fun h => hslice (List.any_eq_true.2 ⟨e, he, h⟩)
    cases es <;> exact hmany

/-- The nodes of an argument of a call. -/
def argumentNodes : Expr ⊕ Keyword Expr → List Part
  | .inl e => [.expr e]
  | .inr k => [.keyword k]

theorem argumentNodes_perm (as : List (Expr ⊕ Keyword Expr)) :
    (as.flatMap argumentNodes).Perm ((positionals as).map .expr ++ (keywords as).map .keyword) := by
  induction as with
  | nil => exact .nil
  | cons a as ih =>
    cases a with
    | inl e => exact ih.cons _
    | inr k => exact (ih.cons _).trans List.perm_middle.symm

/-- A keyword argument ends with its value. -/
theorem keyword_keeps {front : List Token} {k : Keyword Expr} (hfront : Clean front)
    (hstart : StartsAt front k.span.start) (he : Framed s k.value)
    (hstop : k.span.stop = k.value.span.stop) : Keeps (front ++ s) [.keyword k] := by
  obtain ⟨core, back, htail⟩ := he.tailed
  refine ⟨hfront.append he.clean, ?_⟩
  rw [htail.split, ← List.append_assoc]
  have hstops : StopsAt (front ++ core) k.span.stop := hstop ▸ htail.stops.append front
  exact (Holds.node (p := .keyword k) (hstart.append core) hstops (tells_of nofun)
    (htail.nodes.append_left front)).append_right back

theorem oneArgument_takes (hg : g.Frames)
    (hitem : ∀ {pre}, Takes [] pre (testOrStarWith g.test g) Whole) :
    Takes [] pre (oneArgument g) fun s a => Keeps s (argumentNodes a) := by
  refine .when (.popped nofun fun t _ hk _ => .bind hg.test fun s e he => .pure ?_) ?_
  · exact keyword_keeps (k := ⟨⟨t.start, e.span.stop⟩, none, e⟩) (.of_kind hk rfl rfl)
      (startsAt_cons (by rw [hk]; rfl) []) he.toFramed rfl
  refine Takes.pairOr nofun nofun nofun (fun t u ht hu => .bind hg.test fun s e he => .pure ?_)
    (.bind hitem fun s e he => .pure he.keeps)
  have hclean : Clean [t, u] := (Clean.of_kind ht rfl rfl).append (.of_kind hu rfl rfl)
  exact keyword_keeps (k := ⟨⟨t.start, e.span.stop⟩, some (String.ofList t.text), e⟩) hclean
    (startsAt_cons (by rw [ht]; rfl) _) he.toFramed rfl

/-- An expression that starts with another one. -/
theorem made_from {mid core back : List Token} {ps' : List Part} {b : Nat} (hx : Framed s x)
    (hmid : Holds Tells mid ps) (hlast : Tailed s' b ps' core back) (hspan : e.span = ⟨x.span.start, b⟩)
    (hnodes : (Part.expr x :: (ps ++ ps')).Perm e.nodes) (hclean : Clean (mid ++ s')) :
    Made (s ++ (mid ++ s')) e := by
  obtain ⟨front, core', hhead⟩ := hx.headed
  have hall := hx.clean.append hclean
  exact ⟨hall, .inl (.of_edges hhead hmid hlast hspan hnodes hall.balanced)⟩

/-- One call, subscript or attribute behind an expression, if there is one. -/
def trailer (g : Grammar) (e : Expr) : Reader (Option Expr) := do
  match ← Reader.peek with
  | .mark .parenOpen =>
    let _ ← Reader.pop
    let arguments ← argumentLoop g ((← Reader.remaining) + 1)
    let closing ← Reader.expect (.mark .parenClose)
    return some (.call ⟨e.span.start, closing.stop⟩ e (positionals arguments) (keywords arguments))
  | .mark .bracketOpen =>
    let _ ← Reader.pop
    let index ← subscripts g
    let closing ← Reader.expect (.mark .bracketClose)
    return some (.subscript ⟨e.span.start, closing.stop⟩ e index)
  | .mark .dot =>
    let _ ← Reader.pop
    let t ← Reader.expect .identifier
    return some (.attribute ⟨e.span.start, t.stop⟩ e (String.ofList t.text))
  | _ => return none

/-- Turns that each make a larger expression of the one before, until there is nothing to go on with. -/
def turnsOf (step : Expr → Reader (Option Expr)) : Nat → Expr → Reader Expr
  | 0, e => return e
  | turns + 1, e => do
    match ← step e with
    | none => return e
    | some e => turnsOf step turns e

theorem trailerLoop_eq (g : Grammar) : ∀ turns e, trailerLoop g turns e = turnsOf (trailer g) turns e
  | 0, _ => rfl
  | turns + 1, e => by
    rw [trailerLoop, turnsOf, trailer, bind_assoc]
    refine congrArg (Reader.peek >>= ·) (funext fun k => ?_)
    split <;> simp [trailerLoop_eq g turns]

/-- What one turn takes behind an expression: a larger one that starts with it, or nothing. -/
def Turn (s s' : List Token) : Option Expr → Prop
  | none => s' = s
  | some e => Made s' e

theorem trailer_takes (hg : g.Frames)
    (hitem : ∀ {pre}, Takes [] pre (testOrStarWith g.test g) Whole)
    (hsub : ∀ {pre}, Takes [] pre (subscripts g) Framed) (h : Framed s x) :
    Takes s pre (trailer g x) (Turn s) := by
  refine .peek fun k => ?_
  split
  · refine .popped nofun fun t _ ht _ => .remaining fun n => ?_
    rw [argumentLoop_eq]
    have hloop : Takes [] anyToken (Prod.fst <$> itemLoop (oneArgument g) (.mark .parenClose) (n + 1))
        fun s as => Keeps s ((positionals as).map .expr ++ (keywords as).map .keyword) :=
      (itemLoop_takes (oneArgument_takes hg hitem) _).map fun _ _ hp =>
        ⟨hp.clean fun _ _ h => h.clean,
          (hp.holds argumentNodes fun _ _ h => h.holds).perm (argumentNodes_perm _)⟩
    refine .bind hloop fun s' as hs => .expect nofun fun u _ hu _ => .pure ?_
    have := made_from (e := .call ⟨x.span.start, u.stop⟩ x (positionals as) (keywords as)) h (.none [t])
      (tailed_token (by rw [hu]; rfl) hs.holds) rfl (.refl _) (hs.clean.bracket ht hu rfl)
    simpa [Turn] using this
  · refine .popped nofun fun t _ ht _ => .bind hsub fun s' i hi => .expect nofun fun u _ hu _ => .pure ?_
    have := made_from (e := .subscript ⟨x.span.start, u.stop⟩ x i) h (.none [t])
      (tailed_token (by rw [hu]; rfl) hi.holds) rfl (.refl _) (hi.clean.bracket ht hu rfl)
    simpa [Turn] using this
  · refine .popped nofun fun t _ ht _ => .expect nofun fun u _ hu _ => .pure ?_
    have := made_from (e := .attribute ⟨x.span.start, u.stop⟩ x (String.ofList u.text)) h (.none [t])
      (tailed_token (by rw [hu]; rfl) (.none [])) rfl (.refl _)
      ((Clean.of_kind ht rfl rfl).append (.of_kind hu rfl rfl))
    simpa [Turn] using this
  · exact .pure rfl

end Trailers

section Turns

variable {r : Reader Expr} {step : Expr → Reader (Option Expr)} {p : Nat} {pre : Token → Prop}
  {taken s rest : List Token} {e : Expr}

/-- What a rule made can be read again, since the rule makes the same of the same tokens everywhere. -/
theorem whole_of_made (hp : p ≤ 14)
    (h : ∀ m, Steady anyKind (m + 1) 1 (OpensAt p) (EndsAt p) r (ruleAt (level m) p))
    (hr : r ⟨taken, s ++ rest⟩ = .ok (e, ⟨s.reverse ++ taken, rest⟩)) (hmade : Made s e) : Whole s e := by
  obtain ⟨hclean, hmade⟩ := hmade
  have hitem := Itemed.of_rule hp h hr hclean.visible
  obtain hformed | hframed := hmade
  · exact ⟨hformed.framed hclean fun _ => hitem.wraps, hitem⟩
  · exact ⟨hframed, hitem⟩

theorem item_takes (h : ∀ n, Steady anyKind n 1 OpensItem (EndsAt 14) r
      (testOrStarWith (level n).test (level n))) (hr : Takes [] pre r Framed) : Takes [] pre r Whole := by
  intro taken ahead e c hspelled hpre hrun
  obtain ⟨s, rest, rfl, rfl, hframed⟩ := hr taken ahead e c hspelled hpre hrun
  exact ⟨s, rest, rfl, rfl, hframed, Itemed.of_item h hrun hframed.clean.visible⟩

/-- What a rule of some level makes can be read again by the rules of every level. -/
theorem whole_takes {N : Nat} (hp : p ≤ 14) (hr : Takes [] pre (ruleAt (level N) p) Made) :
    Takes [] pre (ruleAt (level N) p) Whole := by
  intro taken ahead e c hspelled hpre hrun
  obtain ⟨s, rest, rfl, rfl, hmade⟩ := hr taken ahead e c hspelled hpre hrun
  have hsteady (m : Nat) : Steady anyKind (m + 1) 1 (OpensAt p) (EndsAt p) (ruleAt (level N) p)
      (ruleAt (level m) p) := ruleAt_steady (level_steady N (Nat.le_refl m)) hp
  exact ⟨s, rest, rfl, rfl, whole_of_made hp hsteady hrun hmade⟩

/-- After each turn a rule has made an expression that can be read again: the rule with just as many
turns makes it. -/
theorem turnsOf_takes (hp : p ≤ 14)
    (hsteady : ∀ k m, Steady anyKind (m + 1) 1 (OpensAt p) (EndsAt p) (r >>= turnsOf step k)
      (ruleAt (level m) p))
    (hr : Takes [] pre r Made) (hstep : ∀ s e, Whole s e → Takes s anyToken (step e) (Turn s)) :
    Takes [] pre (r >>= fun e => Reader.remaining >>= fun turns => turnsOf step turns e) Whole := by
  intro taken ahead e c hspelled hpre hrun
  obtain ⟨⟨e₀, c₀⟩, hrun₀, hrun⟩ := bind_eq_ok.1 hrun
  obtain ⟨s, rest, hahead, rfl, hmade⟩ := hr taken ahead e₀ c₀ hspelled hpre hrun₀
  -- by then the rule has made `e₀` of the tokens `s`, with `k` turns
  suffices h : ∀ turns k s rest e₀, ahead = s ++ rest → Made s e₀ →
      (∀ j, (r >>= turnsOf step (k + j)) ⟨taken, ahead⟩ =
        turnsOf step j e₀ ⟨s.reverse ++ taken, rest⟩) →
      turnsOf step turns e₀ ⟨s.reverse ++ taken, rest⟩ = .ok (e, c) →
        ∃ ts rest', ahead = ts ++ rest' ∧ c = ⟨ts.reverse ++ taken, rest'⟩ ∧ Whole ts e by
    refine h _ 0 s rest e₀ hahead hmade (fun j => ?_) hrun
    rw [Nat.zero_add]
    change (r ⟨taken, ahead⟩ >>= fun p => turnsOf step j p.1 p.2) = _
    rw [show r ⟨taken, ahead⟩ = _ from hrun₀]
    rfl
  intro turns
  induction turns with
  | zero =>
    rintro k s rest e₀ rfl hmade hturns ⟨⟩
    exact ⟨s, rest, rfl, rfl, whole_of_made hp (hsteady k) (hturns 0) hmade⟩
  | succ turns ih =>
    rintro k s rest e₀ rfl hmade hturns hrun
    have hwhole := whole_of_made hp (hsteady k) (hturns 0) hmade
    obtain ⟨⟨o, c₁⟩, hone, hrest⟩ := bind_eq_ok.1 hrun
    obtain ⟨ts, rest, rfl, rfl, hturn⟩ := hstep s e₀ hwhole taken rest o c₁
      (fun t ht => hspelled t (List.mem_append_right _ ht)) trivial hone
    cases o with
    | none =>
      obtain rfl : ts = [] := by simpa [Turn] using hturn
      cases hrest
      exact ⟨s, rest, by simp, by simp, hwhole⟩
    | some e₁ =>
      refine ih (k + 1) (s ++ ts) rest e₁ (by simp) hturn (fun j => ?_) hrest
      rw [Nat.add_assoc, Nat.add_comm 1 j, hturns (j + 1)]
      change (step e₀ ⟨s.reverse ++ taken, ts ++ rest⟩ >>= fun p => _) = _
      rw [show step e₀ ⟨s.reverse ++ taken, ts ++ rest⟩ = _ from hone]
      rfl

end Turns

section Operations

variable {g : Grammar} {pre : Token → Prop} {n N : Nat} {s s' mid : List Token} {e x y : Expr} {t : Token}
  {ps : List Part}

theorem atomExpr_takes (hg : (level N).Frames)
    (hitem : ∀ {pre}, Takes [] pre (testOrStarWith (level N).test (level N)) Whole) :
    Takes [] pre (atomExpr (level N)) Whole := by
  have hg' (m : Nat) : Steadily (m + 1 - 1) (level N) (level m) := level_steady N (Nat.le_refl m)
  have hloop : trailerLoop (level N) = turnsOf (trailer (level N)) :=
    funext fun _ => funext fun _ => trailerLoop_eq _ _ _
  rw [atomExpr, hloop]
  refine turnsOf_takes (p := 1) (by decide) (fun k m => ?_) (atom_takes hg hitem)
    fun s e he => trailer_takes hg hitem (.of_run (dimensions_takes hg) (subscripts_eq (hg' 0))) he.toFramed
  rw [← hloop]
  exact ((atom_steady (hg' m)).bind (fun e => .remaining_right fun _ _ hm hturns =>
    trailerLoop_steady ((hg' m).bound (by omega)) hturns e) fun _ _ hk => hk.mono (by decide)).opens_imp
      fun _ hk => Nat.le_trans hk (by decide)

/-- An operation between two operands. -/
theorem made_between (hx : Framed s x) (hmid : Keeps mid ps) (hy : Framed s' y)
    (hspan : e.span = spanning x y) (hnodes : (Part.expr x :: (ps ++ [Part.expr y])).Perm e.nodes) :
    Made (s ++ (mid ++ s')) e := by
  obtain ⟨core, back, htail⟩ := hy.tailed
  exact made_from hx hmid.holds htail hspan hnodes (hmid.clean.append hy.clean)

theorem power_takes (hg : (level N).Frames)
    (hitem : ∀ {pre}, Takes [] pre (testOrStarWith (level N).test (level N)) Whole) :
    Takes [] pre (power (level N)) Whole := by
  refine whole_takes (p := 2) (by decide) ?_
  refine .bind (atomExpr_takes hg hitem) fun s x hx => .against (.pure hx.toFramed.made)
    (.popped nofun fun t _ hk _ => .bind hg.factor fun s' y hy => .pure ?_)
  simpa using made_between (e := .binary (spanning x y) .pow x y) hx.toFramed (.token hk rfl rfl)
    hy.toFramed rfl (.refl _)

/-- A sign or a negation with its operand. -/
theorem unary_takes {r : Reader Expr} (hr : ∀ {pre}, Takes [] pre r Whole) {op : Operator}
    (hpre : ∀ t, pre t → t.kind.isLayout = false ∧ t.kind.isBracket = false) :
    Takes [] pre (do
      let t ← Reader.pop
      let x ← r
      return .unary ⟨t.start, x.span.stop⟩ op x) Made := by
  refine .pop (fun t ht hk => ?_) fun t ht _ => .bind hr fun s x hx => .pure ?_
  · have hlayout := (hpre t ht).1
    rw [hk] at hlayout
    cases hlayout
  · obtain ⟨hlayout, hb⟩ := hpre t ht
    obtain ⟨hclean, hformed⟩ := made_prefixed (e := Expr.unary ⟨t.start, x.span.stop⟩ op x) rfl hlayout hb
      .nil hx.toFramed rfl (.refl _)
    exact ⟨hclean, .inl hformed⟩

/-- A mark that stands for an operator is no bracket. -/
theorem unaryOperator_plain {k : Kind} {op : Operator} (h : unaryOperator? k = some op) :
    k.isLayout = false ∧ k.isBracket = false := by
  unfold unaryOperator? at h
  split at h <;> first | exact ⟨rfl, rfl⟩ | cases h

theorem binaryOperator_plain {k : Kind} {op : Operator} (h : binaryOperator? k = some op) :
    k.isLayout = false ∧ k.isBracket = false := by
  unfold binaryOperator? at h
  split at h <;> first | exact ⟨rfl, rfl⟩ | cases h

theorem factorRule_takes (hg : (level N).Frames)
    (hitem : ∀ {pre}, Takes [] pre (testOrStarWith (level N).test (level N)) Whole) :
    Takes [] pre (factorRule (level N)) Whole := by
  refine whole_takes (p := 3) (by decide) ?_
  refine .peek fun k => ?_
  split
  · exact (power_takes hg hitem).imp fun _ _ he => he.toFramed.made
  · rename_i op hop
    exact unary_takes hg.factor (by rintro t ⟨-, rfl⟩; exact unaryOperator_plain hop)

/-- One operator with its right operand behind a left one, if there is one. -/
def joined (operators : List Operator) (operand : Reader Expr) (left : Expr) : Reader (Option Expr) := do
  match binaryOperator? (← Reader.peek) with
  | none => return none
  | some op =>
    if !operators.contains op then return none
    let _ ← Reader.pop
    let right ← operand
    return some (.binary (spanning left right) op left right)

theorem leftFold_eq (operators : List Operator) (operand : Reader Expr) : ∀ turns e,
    leftFold operators operand turns e = turnsOf (joined operators operand) turns e
  | 0, _ => rfl
  | turns + 1, e => by
    rw [leftFold, turnsOf, joined, bind_assoc]
    refine congrArg (Reader.peek >>= ·) (funext fun k => ?_)
    cases binaryOperator? k with
    | none => simp
    | some op => by_cases hop : op ∈ operators <;> simp [hop, leftFold_eq operators operand turns]

theorem joined_takes {operators : List Operator} {operand : Reader Expr}
    (hoperand : ∀ {pre}, Takes [] pre operand Whole) (h : Framed s x) :
    Takes s pre (joined operators operand x) (Turn s) := by
  refine .peek fun k => ?_
  split
  · exact .pure rfl
  rename_i op hop
  obtain ⟨hlayout, hb⟩ := binaryOperator_plain hop
  refine .ite (.pure rfl) (.pop (fun t ht hk => ?_) fun t ht _ => .bind hoperand fun s' y hy => .pure ?_)
  · rw [← ht.2, hk] at hlayout
    cases hlayout
  · have := made_between (e := .binary (spanning x y) op x y) h (.token ht.2 hlayout hb) hy.toFramed rfl
      (.refl _)
    simpa [Turn] using this

theorem binaryAt_takes (hg : (level N).Frames)
    (hitem : ∀ {pre}, Takes [] pre (testOrStarWith (level N).test (level N)) Whole) : ∀ k ≤ 6, ∀ {pre},
    Takes [] pre (binaryAt (level N) k) Whole
  | 0, _, _ => factorRule_takes hg hitem
  | k + 1, hk, pre => by
    have hg' (m : Nat) : Steadily (m + 1 - 1) (level N) (level m) := level_steady N (Nat.le_refl m)
    have hoperand {pre} : Takes [] pre (binaryAt (level N) k) Whole := binaryAt_takes hg hitem k (by omega)
    have hloop : leftFold (levelOperators (k + 4)) (binaryAt (level N) k) =
        turnsOf (joined (levelOperators (k + 4)) (binaryAt (level N) k)) :=
      funext fun _ => funext fun _ => leftFold_eq _ _ _ _
    rw [binaryAt, binaryLevel, hloop]
    refine turnsOf_takes (p := k + 4) (by omega) (fun j m => ?_)
      (hoperand.imp fun _ _ he => he.toFramed.made) fun s e he => joined_takes hoperand he.toFramed
    have hsteady := binaryAt_steady (hg' m) k (by omega)
    have hrule : ruleAt (level m) (k + 4) = binaryAt (level m) (k + 1) := by
      match k, hk with
      | 0, _ | 1, _ | 2, _ | 3, _ | 4, _ | 5, _ => rfl
    rw [← hloop, hrule, binaryAt]
    exact (hsteady.bind (fun e => .remaining_right fun _ _ hm hturns => leftFold_steady
      (levelOperators_looseness (k + 4)) (Nat.succ_pos _) (hsteady.bound (by omega)) hturns)
        fun _ _ hk => hk.mono (by omega)).opens_imp fun _ hk => Nat.le_succ_of_le hk

/-- What operands behind a first one take, each behind an operator: the last one is framed. -/
structure Trail (s : List Token) (es : List Expr) : Prop where
  clean : Clean s
  last : (s = [] ∧ es = []) ∨ ∃ before last core back, es = before ++ [last] ∧
    Tailed s last.span.stop (es.map .expr) core back

theorem Trail.nil : Trail [] [] := ⟨.nil, .inl ⟨rfl, rfl⟩⟩

theorem Trail.cons {es : List Expr} (hmid : Keeps mid []) (hx : Framed s x) (h : Trail s' es) :
    Trail (mid ++ (s ++ s')) (x :: es) := by
  refine ⟨hmid.clean.append (hx.clean.append h.clean), .inr ?_⟩
  obtain ⟨rfl, rfl⟩ | ⟨before, last, core, back, rfl, htail⟩ := h.last
  · obtain ⟨core, back, htail⟩ := hx.tailed
    exact ⟨[], x, mid ++ core, back, rfl, by simp [htail.split], htail.closing, htail.stops.append _,
      htail.nodes.append_left _⟩
  · exact ⟨x :: before, last, mid ++ (s ++ core), back, rfl, by simp [htail.split], htail.closing,
      (htail.stops.append _).append _, (hx.holds.append htail.nodes).append_left _⟩

theorem Trail.eq_nil (h : Trail s []) : s = [] := by
  obtain ⟨rfl, -⟩ | ⟨before, last, -, -, hnil, -⟩ := h.last
  · rfl
  · simp at hnil

/-- Operands behind a first one. -/
theorem Trail.made {es : List Expr} {last : Expr} (h : Trail s' es) (hlast : es.getLast? = some last)
    (hx : Framed s x) (hspan : e.span = spanning x last)
    (hnodes : e.nodes = .expr x :: es.map .expr) : Made (s ++ s') e := by
  obtain ⟨rfl, rfl⟩ | ⟨before, last', core, back, rfl, htail⟩ := h.last
  · cases hlast
  obtain rfl : last' = last := by simpa using hlast
  have hmid : Holds Tells [] [] := .none []
  exact made_from hx hmid htail hspan (by rw [hnodes]; exact .refl _) h.clean

/-- The tokens of a comparison are no brackets. -/
theorem keeps_comparison {ts : List Token} (h : ∀ t ∈ ts, reach t.kind = 10) : Keeps ts [] := by
  have hplain {k : Kind} (hk : reach k = 10) : k.isLayout = false ∧ k.isBracket = false := by
    unfold reach at hk
    split at hk <;> first | exact ⟨rfl, rfl⟩ | cases hk
  induction ts with
  | nil => exact .nil
  | cons t ts ih =>
    obtain ⟨hlayout, hb⟩ := hplain (h t List.mem_cons_self)
    exact .cons rfl hlayout hb (ih fun u hu => h u (List.mem_cons_of_mem _ hu))

theorem comparisonLoop_takes (hg : g.Frames) : ∀ {turns pre},
    Takes [] pre (comparisonLoop g turns) fun s rest => Trail s (rest.map Prod.snd)
  | 0, _ => .pure .nil
  | _ + 1, _ => Takes.comparing (fun _ ts _ hts => .bind hg.bitOr fun _ _ he =>
      .bind (comparisonLoop_takes hg) fun _ _ hes => .pure (by
        simpa using Trail.cons (keeps_comparison hts) he.toFramed hes)) (.pure .nil)

theorem comparison_takes (hg : (level N).Frames)
    (hitem : ∀ {pre}, Takes [] pre (testOrStarWith (level N).test (level N)) Whole) :
    Takes [] pre (comparison (level N)) Whole := by
  refine whole_takes (p := 10) (by decide) ?_
  refine .bind (binaryAt_takes hg hitem 6 (by decide)) fun s x hx => .remaining fun _ =>
    .bind (comparisonLoop_takes hg) fun s' rest hrest => ?_
  split
  · rename_i hlast
    obtain rfl := List.getLast?_eq_none_iff.1 hlast
    obtain rfl := Trail.eq_nil hrest
    exact .pure (by simpa using hx.toFramed.made)
  · rename_i op last hlast
    have hlast : (rest.map Prod.snd).getLast? = some last := by
      rw [List.getLast?_map, hlast]
      rfl
    exact .pure (hrest.made hlast hx.toFramed rfl (by simp [Expr.nodes]))

theorem connectiveLoop_takes {word : Word} {operand : Reader Expr}
    (hoperand : ∀ {pre}, Takes [] pre operand Whole) : ∀ {turns pre},
      Takes [] pre (connectiveLoop word operand turns) Trail
  | 0, _ => .pure .nil
  | _ + 1, _ => .against (.pure .nil) (.popped nofun fun _ _ hk _ => .bind hoperand fun _ _ he =>
      .bind (connectiveLoop_takes hoperand) fun _ _ hes => .pure (by
        simpa using Trail.cons (.token hk rfl rfl) he.toFramed hes))

/-- A connective of which nothing but its operand was read leaves it as it is. -/
theorem connective_takes {word : Word} {op : Operator} {operand : Reader Expr}
    (hoperand : ∀ {pre}, Takes [] pre operand Whole) :
    Takes [] pre (connective word op operand) Made := by
  refine .bind hoperand fun s x hx => .remaining fun _ => .bind (connectiveLoop_takes hoperand)
    fun s' es hes => ?_
  split
  · rename_i hlast
    obtain rfl := List.getLast?_eq_none_iff.1 hlast
    obtain rfl := Trail.eq_nil hes
    exact .pure (by simpa using hx.toFramed.made)
  · rename_i last hlast
    exact .pure (hes.made hlast hx.toFramed rfl rfl)

theorem notRule_takes (hg : (level N).Frames)
    (hitem : ∀ {pre}, Takes [] pre (testOrStarWith (level N).test (level N)) Whole) :
    Takes [] pre (notRule (level N)) Whole := by
  refine whole_takes (p := 11) (by decide) ?_
  refine .against ((comparison_takes hg hitem).imp fun _ _ he => he.toFramed.made)
    (unary_takes hg.notTest ?_)
  rintro t ⟨-, hk⟩
  rw [hk]
  exact ⟨rfl, rfl⟩

theorem orRule_takes (hg : (level N).Frames)
    (hitem : ∀ {pre}, Takes [] pre (testOrStarWith (level N).test (level N)) Whole) :
    Takes [] pre (orRule (level N)) Whole := by
  have hand {pre} : Takes [] pre (connective .and_ .and (notRule (level N))) Whole :=
    whole_takes (p := 12) (by decide) (connective_takes (notRule_takes hg hitem))
  exact whole_takes (p := 13) (by decide) (connective_takes hand)

theorem lambdaRule_takes (hg : g.Frames) :
    Takes [] (fun t => pre t ∧ t.kind = .word .lambda_) (lambdaRule g) Made := by
  refine .popped nofun fun t _ hk _ => .bind (params_takes hg _) fun s ps hps =>
    .expect nofun fun c _ hc _ => .bind hg.test fun s' body hbody => .pure ?_
  obtain ⟨hclean, hformed⟩ := made_prefixed (e := .lambda ⟨t.start, body.span.stop⟩ ps body) hk rfl rfl
    (hps.append (.token hc rfl rfl)) hbody.toFramed rfl (by simp [Expr.nodes])
  have : Made _ _ := ⟨hclean, .inl hformed⟩
  simpa using this

theorem testRule_takes (hg : (level N).Frames)
    (hitem : ∀ {pre}, Takes [] pre (testOrStarWith (level N).test (level N)) Whole) :
    Takes [] pre (testRule (level N)) Whole := by
  refine whole_takes (p := 14) (by decide) ?_
  refine .when (lambdaRule_takes hg) (.bind (orRule_takes hg hitem) fun s body hbody =>
    .against (.pure hbody.toFramed.made) (.popped nofun fun t _ hif _ =>
      .bind hg.orTest fun s₁ test htest => .expect nofun fun u _ helse _ =>
        .bind hg.test fun s₂ orelse horelse => .pure ?_))
  have hmid := (Keeps.cons hif rfl rfl htest.toFramed.keeps).append (.token helse rfl rfl)
  have := made_between (e := .conditional (spanning body orelse) test body orelse) hbody.toFramed hmid
    horelse.toFramed rfl (List.Perm.swap _ _ _)
  simpa using this

theorem Tail.keeps {P : List Token → Expr → Prop} {es : List Expr} (h : Tail P s es)
    (hitem : ∀ s e, P s e → Framed s e) : Keeps s (es.map .expr) := by
  induction h with
  | nil => exact .nil
  | comma ht => exact .token ht rfl rfl
  | cons ht h hrest ih => exact .cons ht rfl rfl ((hitem _ _ h).keeps.append ih)

/-- The last token that is no layout is among those at the end, if there is one. -/
theorem StopsAt.of_append {b : Nat} (h : StopsAt (s ++ s') b) (hs : ∃ t ∈ s', t.kind.isLayout = false) :
    StopsAt s' b := by
  obtain ⟨before, t, after, hsplit, hk, hafter, rfl⟩ := h
  obtain ⟨as, rfl, hs'⟩ | ⟨cs, rfl, hs'⟩ := List.append_eq_append_iff.1 hsplit
  · exact ⟨as, t, after, hs', hk, hafter, rfl⟩
  · cases cs with
    | nil => exact ⟨[], t, after, hs'.symm, hk, hafter, rfl⟩
    | cons c cs =>
      obtain ⟨rfl, rfl⟩ := List.cons.inj hs'
      obtain ⟨u, hu, hlayout⟩ := hs
      exact absurd ((hafter u (by simp [hu])).symm.trans hlayout) nofun

/-- A list of expressions starts with the first of them, and ends with the last of its tokens. -/
theorem testListRule_takes
    (hitem : ∀ {pre}, Takes [] pre (testOrStarWith (level N).test (level N)) Whole)
    (hfirst : ∀ {pre}, Takes [] pre (testOrStarWith (testRule (level N)) (level N)) Whole) :
    Takes [] pre (testListRule (level N)) Framed := by
  refine .bind hfirst fun s x hx => .against (.pure hx.toFramed) ?_
  refine .remaining_succ (fun t ht => ht.2 ▸ nofun) fun turns => ?_
  rw [testListLoop_eq]
  refine .bind (tailLoop_comma_takes hitem _) fun ss es hes => ?_
  obtain ⟨htail, hne⟩ := hes
  obtain ⟨b, hseries, hcomma⟩ := Series.of_tail hx htail
  obtain rfl := hcomma hne
  have hkeeps := Tail.keeps htail fun _ _ h => h.toFramed
  have hclean := hx.clean.append hkeeps.clean
  obtain ⟨front, core, hhead⟩ := hx.headed
  refine .spanFrom (hclean.exists_visible (by simp [hne])) fun stop hstop => .pure ?_
  have hstop := StopsAt.of_append hstop (hkeeps.clean.exists_visible hne)
  have hformed := Formed.of_edges (e := .tuple ⟨x.span.start, stop⟩ (x :: es)) hhead (.none [])
    (tailed_stops hstop hkeeps.holds) rfl (.refl _) hclean.balanced
  exact hformed.framed hclean fun _ => hseries.wraps (fun _ _ he => he.item) _

/-- Every rule of the grammar frames what it reads. -/
theorem level_frames : ∀ N, (level N).Frames
  | 0 => ⟨.unexpected, .unexpected, .unexpected, .unexpected, .unexpected, .unexpected⟩
  | N + 1 => by
    have hg := level_frames N
    have hitem {pre} : Takes [] pre (testOrStarWith (level N).test (level N)) Whole :=
      item_takes (fun n => testOrStar_steady (level_steady N (Nat.le_refl n)).test
        (level_steady N (Nat.sub_le n 1))) (testOrStar_takes (hg.test.imp fun _ _ he => he.toFramed) hg)
    have hfirst {pre} : Takes [] pre (testOrStarWith (testRule (level N)) (level N)) Whole :=
      item_takes (fun n => testOrStar_steady (level_steady (N + 1) (Nat.le_refl n)).test
        (level_steady N (Nat.sub_le n 1)))
        (testOrStar_takes ((testRule_takes hg hitem).imp fun _ _ he => he.toFramed) hg)
    exact ⟨testRule_takes hg hitem, orRule_takes hg hitem, notRule_takes hg hitem,
      binaryAt_takes hg hitem 6 (by decide), factorRule_takes hg hitem, testListRule_takes hitem hfirst⟩

end Operations

end Grammar

end Hoist.Surface
