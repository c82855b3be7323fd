import Hoist.Proofs.Surface.Reread
import Hoist.Proofs.Surface.Taking

/-!
# The rules of atoms frame what they read

Every rule of the grammar of expressions makes an expression whose span starts and stops with tokens
that the rule took, but for parentheses, and whose parts stand on tokens of their own below it. The
steps of a rule are gone through one after the other. Here are the rules up to atoms.
-/

namespace Hoist.Surface

/-- Some tokens without layout, whose brackets match, hold some nodes. -/
structure Keeps (s : List Token) (ps : List Part) : Prop where
  clean : Clean s
  holds : Holds Tells s ps

/-- An expression was put together from some tokens, or read from them. -/
def Made (s : List Token) (e : Expr) : Prop := Clean s ∧ (Formed s e ∨ Framed s e)

/-- An expression was read from some tokens, which are an item of a list. -/
structure Whole (s : List Token) (e : Expr) : Prop extends Framed s e where
  item : Itemed s e

theorem Framed.made {s : List Token} {e : Expr} (h : Framed s e) : Made s e := ⟨h.clean, .inr h⟩

theorem Framed.keeps {s : List Token} {e : Expr} (h : Framed s e) : Keeps s [.expr e] :=
  ⟨h.clean, h.holds⟩

theorem tells_of {s : List Token} {p : Part} (hp : ∀ e, p ≠ .expr e) : Tells s p :=
  fun e h => absurd h (hp e)

/-- Nodes in another order are counted the same. -/
theorem perm_of_countP {ps ps' : List Part} (h : ∀ q : Part → Bool, ps.countP q = ps'.countP q) :
    ps.Perm ps' := by
  classical
  exact List.perm_iff_count.2 fun p => h (· == p)

namespace Keeps

variable {s s' : List Token} {ps ps' : List Part} {t u : Token} {k : Kind} {o c : Mark}

theorem nil : Keeps [] [] := ⟨.nil, .none _⟩

theorem append (h : Keeps s ps) (h' : Keeps s' ps') : Keeps (s ++ s') (ps ++ ps') :=
  ⟨h.clean.append h'.clean, h.holds.append h'.holds⟩

theorem perm (h : Keeps s ps) (hperm : ps.Perm ps') : Keeps s ps' := ⟨h.clean, h.holds.perm hperm⟩

theorem token (hk : t.kind = k) (hlayout : k.isLayout = false) (hb : k.isBracket = false) :
    Keeps [t] [] :=
  ⟨.of_kind hk hlayout hb, .none _⟩

/-- A token that is no bracket stands before other ones. -/
theorem cons (hk : t.kind = k) (hlayout : k.isLayout = false) (hb : k.isBracket = false)
    (h : Keeps s ps) : Keeps (t :: s) ps :=
  (token hk hlayout hb).append h

theorem bracket (ht : t.kind = .mark o) (hu : u.kind = .mark c) (hc : o.closing? = some c)
    (h : Keeps s ps) : Keeps (t :: (s ++ [u])) ps :=
  ⟨h.clean.bracket ht hu hc, (h.holds.append_right [u]).append_left [t]⟩

end Keeps

section

variable {s : List Token} {e : Expr} {t u : Token} {k : Kind} {ps : List Part}

theorem Clean.exists_visible (h : Clean s) (hs : s ≠ []) : ∃ t ∈ s, t.kind.isLayout = false :=
  ⟨s.head hs, List.head_mem hs, h.visible _ (List.head_mem hs)⟩

theorem Clean.startsAt (h : Clean s) (hs : s ≠ []) (hu : ∀ v ∈ s.head?, v = u) : StartsAt s u.start := by
  obtain ⟨t, s, rfl⟩ := List.exists_cons_of_ne_nil hs
  obtain rfl := hu t rfl
  exact startsAt_cons (h.visible t List.mem_cons_self) s

theorem Series.keeps {P : List Token → Expr → Prop} {es : List Expr} {b : Bool}
    (h : Series P s es b) (hitem : ∀ s e, P s e → Framed s e) : Keeps s (es.map .expr) := by
  have hholds := h.holds (fun e => [.expr e]) fun s e he => (hitem s e he).holds
  exact ⟨h.clean fun s e he => (hitem s e he).clean, by rwa [← List.map_eq_flatMap] at hholds⟩

/-- Items with commas are a tuple. -/
theorem Series.framed {es : List Expr} {span : Span} (h : Series Whole s es true)
    (hstart : StartsAt s span.start) (hstop : StopsAt s span.stop) : Framed s (.tuple span es) := by
  have hkeeps := Series.keeps h fun _ _ he => he.toFramed
  exact (Formed.whole hstart hstop hkeeps.holds).framed hkeeps.clean fun _ =>
    h.wraps (fun _ _ he => he.item) span

/-- An expression that starts and stops with tokens of its own. -/
theorem made_enclosed {o c : Mark} (ht : t.kind = .mark o) (hu : u.kind = .mark c)
    (hc : o.closing? = some c) (hspan : e.span = ⟨t.start, u.stop⟩) (h : Keeps s e.nodes) :
    Made (t :: (s ++ [u])) e := by
  have hs := h.bracket ht hu hc
  refine ⟨hs.clean, .inl (.whole ?_ ?_ hs.holds)⟩
  · rw [hspan]
    exact startsAt_cons (by rw [ht]; rfl) _
  · rw [hspan]
    exact (stopsAt_singleton (by rw [hu]; rfl)).append (t :: s)

/-- An expression that starts with a token of its own and stops with another one. -/
theorem made_prefixed {s' : List Token} {x : Expr} (hk : t.kind = k) (hlayout : k.isLayout = false)
    (hb : k.isBracket = false) (h : Keeps s ps) (hx : Framed s' x)
    (hspan : e.span = ⟨t.start, x.span.stop⟩) (hnodes : (ps ++ [Part.expr x]).Perm e.nodes) :
    Clean (t :: (s ++ s')) ∧ Formed (t :: (s ++ s')) e := by
  obtain ⟨core, back, htail⟩ := hx.tailed
  have hclean : Clean (t :: (s ++ s')) :=
    (Clean.of_kind hk hlayout hb).append (h.clean.append hx.clean)
  have hhead : Headed [t] t.start [] [] [t] := headed_token (hk ▸ hlayout) (.none [])
  exact ⟨hclean, .of_edges hhead h.holds htail hspan (by simpa using hnodes) hclean.balanced⟩

end

namespace Grammar

/-- The rules that other rules refer to frame what they read. -/
structure Frames (g : Grammar) : Prop where
  test {pre} : Takes [] pre g.test Whole
  orTest {pre} : Takes [] pre g.orTest Whole
  notTest {pre} : Takes [] pre g.notTest Whole
  bitOr {pre} : Takes [] pre g.bitOr Whole
  factor {pre} : Takes [] pre g.factor Whole
  testList {pre} : Takes [] pre g.testList Framed

section Parameters

variable {g : Grammar} {pre : Token → Prop} {s : List Token} {ps : Params Expr}

theorem param_takes : Takes [] pre param fun s p => Keeps s [.param p] :=
  .expect nofun fun _ _ hk _ => .pure ⟨.of_kind hk rfl rfl, .node
    (startsAt_cons (by rw [hk]; rfl) []) (stopsAt_singleton (by rw [hk]; rfl)) (tells_of nofun) (.none _)⟩

theorem defaultValue_takes (hg : g.Frames) :
    Takes [] pre (defaultValue? g) fun s v => Keeps s (v.toList.map .expr) :=
  .against (.pure .nil) (.popped nofun fun _ _ hk _ => .bind hg.test fun _ _ he =>
    .pure (.cons hk rfl rfl he.keeps))

/-- Until a star is read there is no parameter for further arguments, and only the last parameter is
one for keywords. -/
theorem oneParam_takes (hg : g.Frames) {keywordOnly : Bool} (h : Keeps s ps.nodes)
    (hvararg : keywordOnly = false → ps.vararg? = none) (hkwarg : ps.kwarg? = none) :
    Takes s pre (oneParam g ps keywordOnly) fun s' p => Keeps s' p.1.nodes ∧
      (p.2 = false → p.1.vararg? = none) := by
  refine .peek fun k => ?_
  split
  · refine .popped nofun fun t _ hk _ => ?_
    have ht := h.append (.token hk rfl rfl)
    rw [List.append_nil] at ht
    cases keywordOnly with
    | true => exact .refused
    | false =>
      exact .when (.bind param_takes fun s' p hp => .pure ⟨(ht.append hp).perm
          (perm_of_countP fun q => by
            simp only [Params.nodes, hvararg rfl, hkwarg, List.countP_append, List.countP_cons,
              Option.toList_none, Option.toList_some, List.map_nil, List.map_cons, List.countP_nil]
            omega), nofun⟩)
        (.pure ⟨ht, nofun⟩)
  · refine .popped nofun fun t _ hk _ => .bind param_takes fun s' p hp => .pure ⟨?_, hvararg⟩
    have ht := (h.append (.token hk rfl rfl)).append hp
    refine ht.perm (perm_of_countP fun q => ?_)
    simp only [Params.nodes, hkwarg, List.countP_append, List.countP_cons, List.append_nil,
      Option.toList_none, Option.toList_some, List.map_nil, List.map_cons, List.countP_nil]
    omega
  · refine .bind param_takes fun s' p hp => .bind (defaultValue_takes hg) fun s'' v hv => ?_
    have hs := (h.append hp).append hv
    cases keywordOnly with
    | true =>
      refine .pure ⟨hs.perm (perm_of_countP fun q => ?_), nofun⟩
      simp only [Params.nodes, hkwarg, List.countP_append, List.countP_cons, List.map_append,
        Option.toList_none, List.map_nil, List.map_cons, List.countP_nil]
      omega
    | false =>
      refine .pure ⟨hs.perm (perm_of_countP fun q => ?_), fun _ => hvararg rfl⟩
      simp only [Params.nodes, hkwarg, List.countP_append, List.countP_cons, List.map_append,
        Option.toList_none, List.map_nil, List.map_cons, List.countP_nil]
      omega

theorem paramLoop_takes (hg : g.Frames) (close : Kind) : ∀ turns s ps keywordOnly pre,
    Keeps s ps.nodes → (keywordOnly = false → ps.vararg? = none) →
    (ps.kwarg? = none ∨ ∀ t, pre t → t.kind = close) →
      Takes s pre (paramLoop g close turns ps keywordOnly) fun s ps => Keeps s ps.nodes
  | 0, _, _, _, _, h, _, _ => .pure h
  | turns + 1, s, ps, keywordOnly, pre, h, hvararg, hkwarg => by
    refine .when (.pure h) ?_
    obtain hkwarg | hclose := hkwarg
    · refine .chain (oneParam_takes hg h hvararg hkwarg) fun s p hp => ?_
      refine .when (.pure hp.1) (.expect nofun fun t _ hk _ => ?_)
      have ht := hp.1.append (.token hk rfl rfl)
      rw [List.append_nil] at ht
      dsimp only
      split
      · exact .require (paramLoop_takes hg close turns _ _ _ _ ht hp.2 (.inr fun t ht => ht.2))
      · rename_i hnone
        exact paramLoop_takes hg close turns _ _ _ _ ht hp.2 (.inl (by simpa using hnone))
    · exact .never fun t ht => ht.2 (hclose t ht.1)

theorem params_takes (hg : g.Frames) (close : Kind) :
    Takes [] pre (params g close) fun s ps => Keeps s ps.nodes :=
  .remaining fun _ => paramLoop_takes hg close _ _ _ _ _ .nil (fun _ => rfl) (.inl rfl)

end Parameters

section Loops

variable {α : Type} {item : Reader α} {P : List Token → α → Prop} {pre : Token → Prop}

theorem itemLoop_takes (hitem : ∀ {pre}, Takes [] pre item P) (close : Kind) : ∀ {turns pre},
    Takes [] pre (itemLoop item close turns) fun s p => Series P s p.1 p.2
  | 0, _ => .pure .nil
  | _ + 1, _ =>
    .when (.pure .nil) (.bind hitem fun _ _ ha => .when (.pure (.one ha)) (.expect nofun fun _ _ hk _ =>
      .bind (itemLoop_takes hitem close) fun _ _ has => .pure (by simpa using .cons ha hk has)))

theorem tailLoop_takes (hitem : ∀ {pre}, Takes [] pre item P) (stop : Kind → Bool) : ∀ {turns pre},
    Takes [] pre (tailLoop item stop turns) (Tail P)
  | 0, _ => .pure .nil
  | _ + 1, _ =>
    .against (.pure .nil) (.popped nofun fun _ _ hk _ => .choose (.pure (.comma hk))
      (.bind hitem fun _ _ ha => .bind (tailLoop_takes hitem stop) fun _ _ has =>
        .pure (.cons hk ha has)))

/-- At a comma the loop takes it. -/
theorem tailLoop_comma_takes (hitem : ∀ {pre}, Takes [] pre item P) (stop : Kind → Bool) {turns : Nat} :
    Takes [] (fun t => pre t ∧ t.kind = .mark .comma) (tailLoop item stop (turns + 1)) fun s as =>
      Tail P s as ∧ s ≠ [] :=
  .against (.never fun _ ht => ht.2 ht.1.2) (.popped nofun fun _ _ hk _ =>
    .choose (.pure ⟨.comma hk, by simp⟩) (.bind hitem fun _ _ ha =>
      .bind (tailLoop_takes hitem stop) fun _ _ has => .pure ⟨.cons hk ha has, by simp⟩))

end Loops

section Displays

variable {g : Grammar} {pre : Token → Prop} {s : List Token} {e : Expr} {t u : Token}

theorem targetList_takes (hg : g.Frames) : Takes [] pre (targetListWith g.bitOr g) Framed := by
  refine .start fun u _ => .bind_head hg.bitOr fun s e he hhead => .against (.pure he.toFramed) ?_
  refine .remaining_succ (fun t ht => ht.2 ▸ nofun) fun turns => ?_
  rw [targetLoop_eq]
  refine .bind (tailLoop_comma_takes hg.bitOr _) fun ss es hes => ?_
  obtain ⟨b, hseries, hcomma⟩ := Series.of_tail he hes.1
  obtain rfl := hcomma hes.2
  have hclean := hseries.clean fun _ _ h => h.clean
  refine .spanFrom (Clean.exists_visible hclean (by simp [hes.2])) fun stop hstop => .pure ?_
  exact Series.framed hseries ((Clean.startsAt he.clean he.ne_nil hhead).append ss) hstop

theorem conditionLoop_takes (hg : g.Frames) : ∀ {turns pre},
    Takes [] pre (conditionLoop g turns) fun s es => Keeps s (es.map .expr)
  | 0, _ => .pure .nil
  | _ + 1, _ =>
    .against (.pure .nil) (.popped nofun fun _ _ hk _ => .bind hg.orTest fun _ _ he =>
      .bind (conditionLoop_takes hg) fun _ _ hes => .pure ((Keeps.cons hk rfl rfl he.keeps).append hes))

theorem generatorLoop_takes (hg : g.Frames) : ∀ {turns pre},
    Takes [] pre (generatorLoop g turns) fun s gs => Keeps s (gs.flatMap Generator.nodes)
  | 0, _ => .pure .nil
  | _ + 1, _ =>
    .against (.pure .nil) (.popped nofun fun _ _ hk _ => .bind (targetList_takes hg) fun _ _ ht =>
      .expect nofun fun _ _ hin _ => .bind hg.orTest fun _ _ hi => .remaining fun _ =>
        .bind (conditionLoop_takes hg) fun _ _ hcs => .bind (generatorLoop_takes hg) fun _ _ hgs =>
          .pure (by
            have := (((Keeps.cons hk rfl rfl ht.keeps).append (.token hin rfl rfl)).append
              (hi.keeps.append hcs)).append hgs
            simpa [Generator.nodes] using this))

end Displays

section Atoms

variable {g : Grammar} {pre : Token → Prop} {s : List Token} {e : Expr} {t u : Token} {k : Kind}
  {ps : List Part}

theorem yieldExpr_takes (hg : g.Frames) : Takes [] pre (yieldExpr g) Framed := by
  refine .expect nofun fun t _ hk _ => .choose (.bind hg.testList fun s e he => ?_) ?_
  · have hs := Keeps.cons hk rfl rfl he.keeps
    refine .spanFrom (hs.clean.exists_visible (by simp)) fun stop hstop => .pure ?_
    exact (Formed.whole (startsAt_cons (by rw [hk]; rfl) _) hstop hs.holds).framed hs.clean nofun
  · have hs : Keeps [t] [] := .token hk rfl rfl
    refine .spanFrom (hs.clean.exists_visible (by simp)) fun stop hstop => .pure ?_
    exact (Formed.whole (startsAt_cons (by rw [hk]; rfl) _) hstop hs.holds).framed hs.clean nofun

theorem testOrStar_takes {test : Reader Expr} (htest : ∀ {pre}, Takes [] pre test Framed)
    (hg : g.Frames) : Takes [] pre (testOrStarWith test g) Framed :=
  .against htest (.popped nofun fun t _ hk _ => .bind hg.bitOr fun s e he => .pure (by
    obtain ⟨hclean, hformed⟩ := made_prefixed (e := Expr.starred ⟨t.start, e.span.stop⟩ e) hk rfl rfl
      .nil he.toFramed rfl (.refl _)
    exact hformed.framed hclean nofun))

theorem elements_takes (hitem : ∀ {pre}, Takes [] pre (testOrStarWith g.test g) Whole) (close : Kind) :
    Takes [] pre (elements g close) fun s p => Series Whole s p.1 p.2 := by
  refine .remaining fun n => ?_
  rw [elementLoop_eq]
  exact itemLoop_takes hitem close

theorem stringLoop_takes : ∀ {turns pre}, Takes [] pre (stringLoop turns) fun s _ => Clean s
  | 0, _ => .pure .nil
  | _ + 1, _ =>
    .against (.pure .nil) (.popped nofun fun _ _ hk _ => .lift fun _ => .bind stringLoop_takes
      fun _ _ hs => .pure ((Clean.of_kind hk rfl rfl).append hs))

theorem stringLoop_some_takes {turns : Nat} (hpre : ∀ t, pre t → t.kind = .string) :
    Takes [] pre (stringLoop (turns + 1)) fun s _ => Clean s ∧ s ≠ [] :=
  .against (.never fun t ht => ht.2 (hpre t ht.1)) (.popped nofun fun _ _ hk _ => .lift fun _ =>
    .bind stringLoop_takes fun _ _ hs => .pure ⟨(Clean.of_kind hk rfl rfl).append hs, by simp⟩)

theorem parenthesised_takes (hg : g.Frames)
    (hitem : ∀ {pre}, Takes [] pre (testOrStarWith g.test g) Whole) :
    Takes [] (fun t => pre t ∧ t.kind = .mark .parenOpen) (parenthesised g) Made := by
  have hlexeme {t : Token} {m : Mark} (ht : t.kind = .mark m) (hspelled : t.Spelled) :
      t.lexeme = .mark m := by
    simp [Token.lexeme, Lexeme.mark, ht, Kind.isLayout, hspelled m ht]
  refine .popped (by simp) fun t _ ht hspelled => .when ?_ ?_
  · refine .bind (yieldExpr_takes hg) fun s e he => .expect (by simp) fun u _ hu hspelled' => .pure ?_
    exact (he.parenthesised (hlexeme ht hspelled) (hlexeme hu hspelled')).made
  · refine .bind (elements_takes hitem _) fun s p hs => .expect (by simp) fun u _ hu hspelled' => ?_
    obtain ⟨es, comma⟩ := p
    have htuple : Made (t :: (s ++ [u])) (.tuple ⟨t.start, u.stop⟩ es) :=
      made_enclosed ht hu rfl rfl (Series.keeps hs fun _ _ h => h.toFramed)
    rcases es with _ | ⟨e, _ | ⟨e', es⟩⟩
    · exact .pure htuple
    · cases hs with
      | one he =>
        exact .pure (he.toFramed.parenthesised (hlexeme ht hspelled) (hlexeme hu hspelled')).made
      | cons => exact .pure htuple
    · exact .pure htuple

theorem bracketed_takes (hg : g.Frames) (hitem : ∀ {pre}, Takes [] pre (testOrStarWith g.test g) Whole) :
    Takes [] (fun t => pre t ∧ t.kind = .mark .bracketOpen) (bracketed g) Made := by
  refine .popped nofun fun t _ ht _ => .when (.expect nofun fun u _ hu _ => .pure
    (made_enclosed ht hu rfl rfl .nil)) (.bind hitem fun s e he => .when ?_ (.when ?_ ?_))
  · refine .remaining fun _ => .bind (generatorLoop_takes hg) fun s' gs hgs => .expect nofun
      fun u _ hu _ => .pure ?_
    have hs := he.keeps.append hgs
    have hmade := made_enclosed (e := .listComp ⟨t.start, u.stop⟩ e gs) ht hu rfl rfl hs
    simpa using hmade
  · exact .expect nofun fun u _ hu _ => .pure (made_enclosed ht hu rfl rfl he.keeps)
  · refine .expect nofun fun c _ hc _ => .bind (elements_takes hitem _) fun s' p hp => .expect nofun
      fun u _ hu _ => .pure ?_
    have hs := he.keeps.append (.cons hc rfl rfl (Series.keeps hp fun _ _ h => h.toFramed))
    have hmade := made_enclosed (e := .list ⟨t.start, u.stop⟩ (e :: p.1)) ht hu rfl rfl hs
    simpa using hmade

/-- The nodes of an entry of a dict display. -/
def entryNodes (p : Expr × Expr) : List Part := [.expr p.1, .expr p.2]

theorem oneEntry_takes (hg : g.Frames) :
    Takes [] pre (oneEntry g) fun s p => Keeps s (entryNodes p) :=
  .bind hg.test fun _ _ hk => .expect nofun fun _ _ hc _ => .bind hg.test fun _ _ hv => .pure (by
    have := (hk.keeps.append (.token hc rfl rfl)).append hv.keeps
    simpa [entryNodes] using this)

theorem braced_takes (hg : g.Frames) :
    Takes [] (fun t => pre t ∧ t.kind = .mark .braceOpen) (braced g) Made := by
  refine .popped nofun fun t _ ht _ => .remaining fun n => ?_
  rw [entryLoop_eq]
  have hloop : Takes [] anyToken (Prod.fst <$> itemLoop (oneEntry g) (.mark .braceClose) (n + 1))
      fun s es => Keeps s (es.flatMap entryNodes) :=
    (itemLoop_takes (oneEntry_takes hg) _).map fun _ _ hp =>
      ⟨hp.clean fun _ _ h => h.clean, hp.holds entryNodes fun _ _ h => h.holds⟩
  refine .bind hloop fun s es hs => .expect nofun fun u _ hu _ => .pure ?_
  exact made_enclosed (e := .dict ⟨t.start, u.stop⟩ es) ht hu rfl rfl hs

theorem atom_takes (hg : g.Frames) (hitem : ∀ {pre}, Takes [] pre (testOrStarWith g.test g) Whole) :
    Takes [] pre (atom g) Made := by
  have hone {e : Expr} {u : Token} {k : Kind} (hk : u.kind = k) (hlayout : k.isLayout = false)
      (hb : k.isBracket = false) (hspan : e.span = ⟨u.start, u.stop⟩) (hnodes : e.nodes = []) :
      Made [u] e := by
    refine ⟨.of_kind hk hlayout hb, .inl (.whole ?_ ?_ (hnodes ▸ .none _))⟩
    · rw [hspan]
      exact startsAt_cons (hk ▸ hlayout) _
    · rw [hspan]
      exact stopsAt_singleton (hk ▸ hlayout)
  refine .next fun u hu => ?_
  dsimp only
  split
  all_goals rename_i hk
  · refine .pop (by rintro _ rfl; simp [hk]) fun t ht _ => .pure ?_
    subst ht
    exact hone hk rfl rfl rfl rfl
  · refine .pop (by rintro _ rfl; simp [hk]) fun t ht _ => .lift fun v => .pure ?_
    subst ht
    exact hone hk rfl rfl rfl rfl
  · refine .remaining_succ (by rintro _ rfl; simp [hk]) fun n => ?_
    refine .bind_head (stringLoop_some_takes (by rintro _ rfl; exact hk)) fun s cs hs hhead => ?_
    refine .spanFrom (hs.1.exists_visible hs.2) fun stop hstop => .pure ?_
    exact ⟨hs.1, .inl (.whole (hs.1.startsAt hs.2 hhead) hstop (.none _))⟩
  iterate 3
    refine .pop (by rintro _ rfl; simp [hk]) fun t ht _ => .pure ?_
    subst ht
    exact hone hk rfl rfl rfl rfl
  · exact (parenthesised_takes hg hitem).pre_imp (by rintro _ rfl; exact ⟨hu, hk⟩)
  · exact (bracketed_takes hg hitem).pre_imp (by rintro _ rfl; exact ⟨hu, hk⟩)
  · exact (braced_takes hg).pre_imp (by rintro _ rfl; exact ⟨hu, hk⟩)
  · exact .unexpected

end Atoms

end Grammar

end Hoist.Surface
