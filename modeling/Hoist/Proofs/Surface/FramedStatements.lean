import Hoist.Proofs.Surface.FramedOperations
import Hoist.Surface.Grammar.Statement

/-!
# Statements in their tokens

The span of a statement starts with its first token and stops with the last one that was taken for it,
but for layout. So the tokens taken for a statement hold it, with what it is made of, and those taken
for a module hold its statements one behind the other.
-/

namespace Hoist.Surface

/-- Some tokens hold the statements of a block. -/
abbrev HoldsBlock (s : List Token) (ss : List Stmt) : Prop := Holds Tells s (ss.map .stmt)

namespace Blocks

/-- The rules that compound statements refer to hold what they read. -/
structure Frames (b : Blocks) : Prop where
  statement {pre} : Takes [] pre b.statement HoldsBlock
  branch {pre : Token → Prop} : Takes [] (fun t => pre t ∧ t.kind.isLayout = false) b.branch
    fun s st => HoldsBlock s [st]

section Parts

variable {g : Grammar} {b : Blocks} {pre : Token → Prop} {s : List Token} {start : Nat} {ps : List Part}

theorem StartsAt.exists_visible (h : StartsAt s start) : ∃ t ∈ s, t.kind.isLayout = false := by
  obtain ⟨t, ht, hk, -⟩ := h
  exact ⟨t, List.mem_of_mem_head? ht, hk⟩

/-- A statement that stops with the last token seen. -/
theorem closing_takes {f : Span → Stmt} (hstart : StartsAt s start) (hs : Holds Tells s ps)
    (hspan : ∀ sp, (f sp).span = sp) (hnodes : ∀ sp, (f sp).nodes = ps) :
    Takes s pre (do return f (← Grammar.spanFrom start)) fun s st => HoldsBlock s [st] := by
  refine .spanFrom (StartsAt.exists_visible hstart) fun stop hstop => .pure ?_
  refine .node (p := .stmt (f ⟨start, stop⟩)) ?_ ?_ (tells_of nofun) ?_
  · simpa [Part.span, hspan] using hstart
  · simpa [Part.span, hspan] using hstop
  · simpa [Part.nodes, hnodes] using hs

theorem valueBeforeEnd_takes (hg : g.Frames) :
    Takes [] pre (valueBeforeEnd g) fun s v => Keeps s (v.toList.map .expr) :=
  .choose (.pure .nil) (.bind hg.testList fun _ _ he => .pure he.keeps)

theorem rightSide_takes (hg : g.Frames) : Takes [] pre (rightSide g) Framed := by
  refine .against hg.testList (.popped nofun fun t _ hk _ =>
    .bind (valueBeforeEnd_takes hg) fun s v hv => ?_)
  have hs := Keeps.cons hk rfl rfl hv
  refine .spanFrom (hs.clean.exists_visible (by simp)) fun stop hstop => .pure ?_
  exact (Formed.whole (startsAt_cons (by rw [hk]; rfl) _) hstop hs.holds).framed hs.clean nofun

theorem nameOf_takes : Takes [] pre nameOf fun s _ => s ≠ [] :=
  .expect nofun fun _ _ _ _ => .pure (by simp)

theorem nameLoop_takes : ∀ {turns pre}, Takes [] pre (nameLoop turns) fun _ _ => True
  | 0, _ => .pure trivial
  | _ + 1, _ => .against (.pure trivial) (.popped nofun fun _ _ _ _ => .bind nameOf_takes fun _ _ _ =>
      .bind nameLoop_takes fun _ _ _ => .pure trivial)

theorem assignLoop_takes (hg : g.Frames) : ∀ {turns pre},
    Takes [] pre (assignLoop g turns) fun s es => Holds Tells s (es.map .expr)
  | 0, _ => .pure (.none _)
  | _ + 1, _ => .against (.pure (.none _)) (.popped nofun fun t _ _ _ => .bind (rightSide_takes hg)
      fun _ _ he => .bind (assignLoop_takes hg) fun _ _ hes => .pure
        ((he.holds.append hes).append_left [t]))

end Parts

section Simple

variable {g : Grammar} {b : Blocks} {pre : Token → Prop} {u : Token}

theorem expressionStatement_takes (hg : g.Frames) :
    Takes [] (· = u) (expressionStatement g u.start) fun s st => HoldsBlock s [st] := by
  refine .bind_head (rightSide_takes hg) fun s first hfirst hhead => ?_
  have hstart := Clean.startsAt hfirst.clean hfirst.ne_nil hhead
  refine .peek fun k => ?_
  split
  · rename_i op hop
    refine .pop (fun t ht hk => ?_) fun t _ _ => .bind (rightSide_takes hg) fun s' value hvalue => ?_
    · obtain ⟨-, rfl⟩ := ht
      rw [hk] at hop
      cases hop
    · exact closing_takes ((hstart.append [t]).append s')
        ((hfirst.holds.append_right [t]).append hvalue.holds) (fun _ => rfl) fun _ => rfl
  · refine .remaining fun _ => .bind (assignLoop_takes hg) fun s' others hothers => ?_
    have hs := hfirst.holds.append hothers
    refine .spanFrom (StartsAt.exists_visible (hstart.append s')) fun stop hstop => ?_
    split
    · rename_i hlast
      obtain rfl := List.getLast?_eq_none_iff.1 hlast
      exact .pure (.node (p := .stmt (.expr ⟨u.start, stop⟩ first)) (hstart.append s') hstop
        (tells_of nofun) hs)
    · rename_i value hlast
      obtain ⟨others, rfl⟩ := List.getLast?_eq_some_iff.1 hlast
      refine .pure (.node
        (p := .stmt (.assign ⟨u.start, stop⟩ (first :: (others ++ [value]).dropLast) value))
        (hstart.append s') hstop (tells_of nofun) ?_)
      simpa [Part.nodes, Stmt.nodes] using hs

theorem simple_takes (hg : g.Frames) : Takes [] pre (simple g) fun s st => HoldsBlock s [st] := by
  refine .next fun u _ => ?_
  have hpop {α} {f : Token → Reader α} {after} (hk : u.kind.isLayout = false)
      (hf : StartsAt [u] u.start → Takes [u] anyToken (f u) after) :
      Takes [] (· = u) (Reader.pop >>= f) after := by
    refine .pop (fun t ht hend => ?_) fun t ht _ => ?_
    · rw [← ht, hend] at hk
      cases hk
    · subst ht
      exact hf (startsAt_cons hk [])
  split
  all_goals rename_i hk
  · refine hpop (by rw [hk]; rfl) fun hstart => .bind (valueBeforeEnd_takes hg) fun s v hv => ?_
    exact closing_takes (hstart.append s) (hv.holds.append_left [u]) (fun _ => rfl) fun _ => rfl
  iterate 3
    refine hpop (by rw [hk]; rfl) fun hstart => ?_
    exact closing_takes hstart (.none _) (fun _ => rfl) fun _ => rfl
  · refine hpop (by rw [hk]; rfl) fun hstart => .bind (valueBeforeEnd_takes hg) fun s v hv => ?_
    exact closing_takes (hstart.append s) (hv.holds.append_left [u]) (fun _ => rfl) fun _ => rfl
  iterate 2
    refine hpop (by rw [hk]; rfl) fun hstart => .bind nameOf_takes fun s _ _ => .remaining fun _ =>
      .bind nameLoop_takes fun s' _ _ => ?_
    exact closing_takes ((hstart.append s).append s') (.none _) (fun _ => rfl) fun _ => rfl
  · exact expressionStatement_takes hg

theorem simpleLoop_takes (hg : g.Frames) : ∀ {turns pre}, Takes [] pre (simpleLoop g turns) HoldsBlock
  | 0, _ => .pure (.none _)
  | _ + 1, _ => .bind (simple_takes hg) fun _ _ hs => .against (.pure hs) (.popped nofun fun t _ _ _ =>
      .when (.pure (hs.append_right [t])) (.bind (simpleLoop_takes hg) fun _ _ hss => .pure
        ((hs.append_right [t]).append hss)))

theorem simpleLine_takes (hg : g.Frames) : Takes [] pre (simpleLine g) HoldsBlock :=
  .remaining fun _ => .bind (simpleLoop_takes hg) fun _ _ hs => .expect nofun fun t _ _ _ =>
    .pure (hs.append_right [t])

end Simple

section Compound

variable {g : Grammar} {b : Blocks} {pre : Token → Prop} {s : List Token} {start : Nat}

theorem statementLoop_takes (hb : b.Frames) : ∀ {turns pre}, Takes [] pre (statementLoop b turns) HoldsBlock
  | 0, _ => .pure (.none _)
  | _ + 1, _ => .when (.pure (.none _)) (.bind hb.statement fun _ _ hs => .bind (statementLoop_takes hb)
      fun _ _ hss => .pure (by simpa [HoldsBlock] using hs.append hss))

theorem suite_takes (hg : g.Frames) (hb : b.Frames) : Takes [] pre (suite g b) HoldsBlock := by
  refine .expect nofun fun t _ _ _ => .against ((simpleLine_takes hg).behind fun _ _ hs =>
    hs.append_left [t]) (.popped nofun fun u _ _ _ => .expect nofun fun v _ _ _ =>
      .remaining fun _ => .bind (statementLoop_takes hb) fun s ss hs => ?_)
  have hs := hs.append_left [t, u, v]
  exact .skip (fun w => .pure (by simpa using hs.append_right [w])) (.pure (by simpa using hs))

theorem optionalSuite_takes (hg : g.Frames) (hb : b.Frames) {word : Word} :
    Takes [] pre (optionalSuite g b word) HoldsBlock :=
  .against (.pure (.none _)) (.popped nofun fun t _ _ _ => (suite_takes hg hb).behind fun _ _ hs =>
    hs.append_left [t])

theorem functionDef_takes (hg : g.Frames) (hb : b.Frames) {ds : List Expr}
    (hs : Holds Tells s (ds.map .expr))
    (hstart : ∀ t, pre t → t.kind.isLayout = false → StartsAt (s ++ [t]) start) :
    Takes s pre (functionDef g b start ds) fun s st => HoldsBlock s [st] := by
  refine .expect nofun fun t ht hk _ => .bind nameOf_takes fun s₁ name _ => .expect nofun fun u _ _ _ =>
    .bind (Grammar.params_takes hg _) fun s₂ ps hps => .expect nofun fun v _ _ _ =>
      .bind (suite_takes hg hb) fun s₃ body hbody => ?_
  have hstart := hstart t ht (by rw [hk]; rfl)
  refine closing_takes (((((hstart.append s₁).append [u]).append s₂).append [v]).append s₃)
    ((((((hs.append_right [t]).append_right s₁).append_right [u]).append hps.holds).append_right
      [v]).append hbody) (fun _ => rfl) fun _ => rfl

/-- What a keyword of a compound statement starts. -/
theorem keyword_takes {α : Type} {f : Token → Reader α} {after : List Token → α → Prop} {k : Kind}
    (hk : k.isLayout = false)
    (hf : ∀ t, StartsAt [t] t.start → Takes [t] anyToken (f t) after) :
    Takes [] pre (Reader.expect k >>= f) after :=
  .expect (by rintro rfl; cases hk) fun t _ ht _ => hf t (startsAt_cons (ht ▸ hk) [])

theorem branchRule_takes (hg : g.Frames) (hb : b.Frames) :
    Takes [] (fun t => pre t ∧ t.kind.isLayout = false) (branchRule g b) fun s st => HoldsBlock s [st] := by
  refine .pop (fun t ht hk => ?_) fun t ht _ => .bind hg.test fun s₁ test htest =>
    .bind (suite_takes hg hb) fun s₂ body hbody => ?_
  · have := ht.2
    rw [hk] at this
    cases this
  have hstart := ((startsAt_cons ht.2 []).append s₁).append s₂
  have hs := (htest.holds.append_left [t]).append hbody
  have hrest {s₃ orelse} (h : HoldsBlock s₃ orelse) : Takes ([] ++ [t] ++ s₁ ++ s₂ ++ s₃) anyToken
      (do return Stmt.ifElse (← Grammar.spanFrom t.start) test body orelse)
      fun s st => HoldsBlock s [st] :=
    closing_takes (hstart.append s₃) (hs.append h) (fun _ => rfl) fun _ => by simp [Stmt.nodes]
  have hbranch : Takes [] (fun t => anyToken t ∧ t.kind = .word .elif_) (do return [← b.branch])
      HoldsBlock :=
    .bind (hb.branch.pre_imp fun t ht => ⟨trivial, ht.2 ▸ rfl⟩) fun _ _ hs => .pure hs
  exact .when (.bind hbranch fun _ _ h => hrest h)
    (.bind (optionalSuite_takes hg hb) fun _ _ h => hrest h)

theorem whileRule_takes (hg : g.Frames) (hb : b.Frames) :
    Takes [] pre (whileRule g b) fun s st => HoldsBlock s [st] :=
  keyword_takes rfl fun t hstart => .bind hg.test fun s₁ _ htest =>
    .bind (suite_takes hg hb) fun s₂ _ hbody => .bind (optionalSuite_takes hg hb)
    fun s₃ _ horelse => closing_takes
      (((hstart.append s₁).append s₂).append s₃)
      (((htest.holds.append_left [t]).append hbody).append horelse) (fun _ => rfl)
      fun _ => by simp [Stmt.nodes]

theorem forRule_takes (hg : g.Frames) (hb : b.Frames) :
    Takes [] pre (forRule g b) fun s st => HoldsBlock s [st] :=
  keyword_takes rfl fun t hstart => .bind (Grammar.targetList_takes hg) fun s₁ _ htarget =>
    .expect nofun fun u _ _ _ => .bind hg.testList fun s₂ _ hiter =>
      .bind (suite_takes hg hb) fun s₃ _ hbody => .bind (optionalSuite_takes hg hb)
        fun s₄ _ horelse => closing_takes
          (((((hstart.append s₁).append [u]).append s₂).append s₃).append s₄)
          (((((htarget.holds.append_left [t]).append_right [u]).append hiter.holds).append
            hbody).append horelse) (fun _ => rfl) fun _ => by simp [Stmt.nodes]

theorem handlerHead_takes (hg : g.Frames) :
    Takes [] pre (handlerHead g) fun s p => Holds Tells s (p.1.toList.map .expr) :=
  .when (.pure (.none _)) (.bind hg.test fun _ _ he => .against (.pure he.holds) (.popped nofun
    fun u _ _ _ => .bind nameOf_takes fun s₂ _ _ => .pure ((he.holds.append_right [u]).append_right s₂)))

theorem handlerLoop_takes (hg : g.Frames) (hb : b.Frames) : ∀ {turns pre},
    Takes [] pre (handlerLoop g b turns) fun s hs => Holds Tells s (hs.map .handler)
  | 0, _ => .pure (.none _)
  | _ + 1, _ => by
    refine .against (.pure (.none _)) (.popped nofun fun t _ hk _ => .bind (handlerHead_takes hg)
      fun s₁ p htype => .bind (suite_takes hg hb) fun s₂ body hbody => ?_)
    have hstart := ((startsAt_cons (t := t) (by rw [hk]; rfl) []).append s₁).append s₂
    refine .spanFrom (StartsAt.exists_visible hstart) fun stop hstop =>
      .bind (handlerLoop_takes hg hb) fun s₃ hs hhs => .pure ?_
    have hnodes := (htype.append_left [t]).append hbody
    exact Holds.append (.node (p := .handler ⟨⟨t.start, stop⟩, p.1, p.2, body⟩) hstart hstop
      (tells_of nofun) hnodes) hhs

theorem tryRule_takes (hg : g.Frames) (hb : b.Frames) :
    Takes [] pre (tryRule g b) fun s st => HoldsBlock s [st] := by
  refine keyword_takes rfl fun t hstart => .bind (suite_takes hg hb) fun s₁ body hbody =>
    .remaining fun _ => .bind (handlerLoop_takes hg hb) fun s₂ handlers hhandlers =>
      .bind (optionalSuite_takes hg hb) fun s₃ orelse horelse =>
        .bind (optionalSuite_takes hg hb) fun s₄ finalbody hfinal => ?_
  have hrest {pre} : Takes ([t] ++ s₁ ++ s₂ ++ s₃ ++ s₄) pre (do
      return Stmt.tryExcept (← Grammar.spanFrom t.start) body handlers orelse finalbody)
      fun s st => HoldsBlock s [st] :=
    closing_takes ((((hstart.append s₁).append s₂).append s₃).append s₄)
      ((((hbody.append_left [t]).append hhandlers).append horelse).append hfinal) (fun _ => rfl)
      fun _ => rfl
  exact .ite (.require hrest) hrest

theorem decoratorLoop_takes (hg : g.Frames) : ∀ {turns pre},
    Takes [] pre (decoratorLoop g turns) fun s es => Holds Tells s (es.map .expr)
  | 0, _ => .pure (.none _)
  | _ + 1, _ => .against (.pure (.none _)) (.popped nofun fun t _ _ _ => .bind hg.test fun _ _ he =>
      .expect nofun fun u _ _ _ => .bind (decoratorLoop_takes hg) fun _ _ hes => .pure
        (((he.holds.append_left [t]).append_right [u]).append hes))

/-- The first decorator is there. -/
theorem decoratorLoop_some_takes (hg : g.Frames) {turns : Nat} (hpre : ∀ t, pre t → t.kind = .mark .at) :
    Takes [] pre (decoratorLoop g (turns + 1)) fun s es => Holds Tells s (es.map .expr) ∧ s ≠ [] :=
  .against (.never fun t ht => ht.2 (hpre t ht.1)) (.popped nofun fun t _ _ _ =>
    .bind hg.test fun _ _ he => .expect nofun fun u _ _ _ =>
      .bind (decoratorLoop_takes hg) fun _ _ hes => .pure
      ⟨((he.holds.append_left [t]).append_right [u]).append hes, by simp⟩)

theorem statementRule_takes (hg : g.Frames) (hb : b.Frames) :
    Takes [] pre (statementRule g b) HoldsBlock := by
  have hone {s pre} {rule : Reader Stmt} (h : Takes s pre rule fun s st => HoldsBlock s [st]) :
      Takes s pre (do return [← rule]) HoldsBlock := h.chain fun s st hs => .pure hs
  refine .next fun u _ => ?_
  split
  all_goals rename_i hk
  · refine .remaining_succ (by rintro _ rfl; simp [hk]) fun n => .bind_head
      (decoratorLoop_some_takes hg (by rintro _ rfl; exact hk)) fun s ds hs hhead => .require ?_
    obtain ⟨v, s, rfl⟩ := List.exists_cons_of_ne_nil hs.2
    obtain rfl := hhead v rfl
    exact hone (functionDef_takes hg hb hs.1 fun _ _ _ => (startsAt_cons (by rw [hk]; rfl) s).append _)
  · exact hone (functionDef_takes hg hb (.none _) (by rintro _ rfl hk; exact startsAt_cons hk []))
  · have hif : ∀ t, t = u → anyToken t ∧ t.kind.isLayout = false := by
      rintro _ rfl
      exact ⟨trivial, hk ▸ rfl⟩
    exact hone ((branchRule_takes hg hb).pre_imp hif)
  · exact hone (whileRule_takes hg hb)
  · exact hone (forRule_takes hg hb)
  · exact hone (tryRule_takes hg hb)
  · exact .unexpected
  · exact simpleLine_takes hg

theorem level_frames (hg : g.Frames) : ∀ n, (level g n).Frames
  | 0 => ⟨.unexpected, .unexpected⟩
  | n + 1 =>
    have hb := level_frames hg n
    ⟨statementRule_takes hg hb, branchRule_takes hg hb⟩

theorem moduleLoop_takes (hb : b.Frames) : ∀ {turns pre}, Takes [] pre (moduleLoop b turns) HoldsBlock
  | 0, _ => .pure (.none _)
  | _ + 1, _ => by
    refine .peek fun k => ?_
    split
    · exact .pure (.none _)
    · exact .popped nofun fun t _ _ _ => (moduleLoop_takes hb).behind fun _ _ hs => hs.append_left [t]
    · exact .bind hb.statement fun _ _ hs => .bind (moduleLoop_takes hb) fun _ _ hss =>
        .pure (by simpa [HoldsBlock] using hs.append hss)

end Compound

end Blocks

theorem readGrammar_takes {pre : Token → Prop} : Takes [] pre readGrammar fun _ g => g.Frames :=
  .remaining fun _ => .pure (Grammar.level_frames _)

/-- The tokens that were taken for statements hold them. -/
theorem readStatements_takes : Takes [] anyToken readStatements HoldsBlock :=
  readGrammar_takes.bind fun s _ hg => .remaining fun _ => .remaining fun _ =>
    (Blocks.moduleLoop_takes (Blocks.level_frames hg _)).behind fun _ _ hs => hs.append_left s

end Hoist.Surface
