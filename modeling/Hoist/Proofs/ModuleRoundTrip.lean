import Hoist.Proofs.Surface.Compound

/-!
# Modules are read back

A module whose statements have a reference form is read back, up to spans, from every text in which
their lines are laid out: with any indentation of each block, and with blank lines and comments between
the lines. The margins of the text become the ends and starts of blocks in the lexer
(`LaidOut.tokenize_eq`),
and the readers of statements find in those blocks what was written there (`PlainStmt.recited`).
-/

namespace Hoist.Surface

open Grammar Blocks

section

variable {bare : Bool} {chained : Stmt → Bool} {m n turns : Nat} {s : Stmt} {ss : List Stmt}
  {ls rest : List Lexeme}

/-- A statement on a line of its own is read back when the reader of simple statements reads it. -/
theorem Recited.of_simple (hform : s.outline bare chained .if_ = [.line ls []])
    (hstarts : ∀ rest, startsSimple (nextKind (ls ++ rest)) = true)
    (hs : followsChained chained [s] = false)
    (h : ∀ n rest, (ls ++ .layout .newline :: rest).length ≤ n →
      Yields Stmt.unplaced (simple (.level n)) s.unplaced (ls ++ .layout .newline :: rest)
        (.layout .newline :: rest)) : Recited bare chained s where
  starts rest := by
    rw [hform, outlined_line, List.append_assoc]
    exact startsStatement_of_simple (hstarts _)
  reads m n rest hm _ hlen := by
    rw [hform, outlined_line, List.append_assoc, List.cons_append] at hlen ⊢
    exact statementRule_simple (hstarts _) (simpleLine_reads (h n rest (by
      exact Nat.le_trans hlen hm)))
  branch hchained := absurd hchained (by simp [hs])

/-- A compound statement is read by the rule of its keyword. -/
theorem statementRule_word {w : Word} {rule : Grammar → Blocks → Reader Stmt} {g : Grammar}
    {b : Blocks} {a : Stmt} (hrule : (w, rule) ∈
      [(Word.if_, branchRule), (.while_, whileRule), (.for_, forRule), (.try_, tryRule)])
    (h : Yields Stmt.unplaced (rule g b) a (.word w :: ls) rest) :
    Yields (List.map Stmt.unplaced) (statementRule g b) [a] (.word w :: ls) rest := by
  have hread : Yields (List.map Stmt.unplaced) (do return [← rule g b]) [a] (.word w :: ls) rest :=
    h.bind fun s hs => .pure ⟨by simp [hs], rfl⟩
  refine .next fun t ht => ?_
  have hk : t.kind = .word w := congrArg Lexeme.kind ht
  rw [hk]
  simp only [List.mem_cons, Prod.mk.injEq, List.not_mem_nil, or_false] at hrule
  obtain ⟨rfl, rfl⟩ | ⟨rfl, rfl⟩ | ⟨rfl, rfl⟩ | ⟨rfl, rfl⟩ := hrule
  all_goals exact hread

/-- A definition is read with its decorators. -/
theorem statementRule_def {t : Span} {f : String} {ps : Params Expr} {b : List Stmt} {ds : List Expr}
    (hps : ps.ArePlain) (hne : b ≠ []) (hb : ∀ s ∈ b, Recited bare chained s) (hds : ∀ d ∈ ds, Plain d)
    (hm : m < n)
    (hlen : (outlined ((Stmt.functionDef t f ps b ds).outline bare chained .if_) ++
      rest).length ≤ m + 1) :
    Yields (List.map Stmt.unplaced) (statementRule (.level n) (.level (.level n) m))
      [(Stmt.functionDef t f ps b ds).unplaced]
      (outlined ((Stmt.functionDef t f ps b ds).outline bare chained .if_) ++ rest) rest := by
  have hblock := blockOutline_ne_nil bare chained hne .if_
  have hform : outlined ((Stmt.functionDef t f ps b ds).outline bare chained .if_) ++ rest =
      outlined (decoratorLines bare ds) ++
        (defLexemes f ps (blockOutline bare chained b .if_) ++ rest) := by
    rw [Stmt.outline, outlined_append, outlined_clause hblock]
    simp [defLexemes, wrapped, outlined]
  rw [hform] at hlen ⊢
  have hdef : ∀ start as, as.map Expr.unplaced = ds.map Expr.unplaced →
      Yields (List.map Stmt.unplaced) (do
        return [← functionDef (.level n) (.level (.level n) m) start as])
        [(Stmt.functionDef t f ps b ds).unplaced]
        (defLexemes f ps (blockOutline bare chained b .if_) ++ rest) rest := by
    intro start as has
    rw [List.length_append] at hlen
    exact (functionDef_reads t f hps hb hm has (by omega)).bind fun a ha => .pure ⟨by simp [ha], rfl⟩
  cases ds with
  | nil =>
    refine .next fun t ht => ?_
    have hk : t.kind = .word .def_ := congrArg Lexeme.kind ht
    rw [hk]
    exact hdef _ _ rfl
  | cons d ds =>
    refine .next fun t ht => ?_
    have hk : t.kind = .mark .at := congrArg Lexeme.kind ht
    rw [hk]
    refine .remaining ((decoratorLoop_reads hds (by simp [defLexemes]) (by omega) (Nat.le_refl _)).bind
      fun as has => .require rfl (hdef _ _ has))

/-- The form of a plain statement is read back. -/
theorem PlainStmt.recited (h : PlainStmt s) : Recited bare chained s := by
  induction h with
  | expr value =>
    exact .of_simple rfl (fun rest => startsSimple_of_entry value.entry_list) rfl
      fun n rest hlen => simple_expr value hlen
  | @assign t ts v nonempty targets value =>
    refine .of_simple rfl (fun rest => startsSimple_of_entry ?_) rfl fun n rest hlen => ?_
    · obtain ⟨e, ts, rfl⟩ := List.exists_cons_of_ne_nil nonempty
      rw [targetForms_append, List.append_assoc]
      exact (targets e List.mem_cons_self).entry_list
    · rw [List.append_assoc] at hlen ⊢
      exact simple_assign nonempty targets value hlen
  | @augAssign t e op v augments target value =>
    refine .of_simple rfl (fun rest => startsSimple_of_entry ?_) rfl fun n rest hlen => ?_
    · rw [List.append_assoc]
      exact target.entry_list
    · rw [List.append_assoc, List.append_assoc] at hlen ⊢
      exact simple_augAssign target value augments hlen
  | @functionDef t f ps b ds named params nonempty body decorators ih =>
    refine ⟨fun rest => ?_, fun m n rest hm _ hlen =>
      statementRule_def params nonempty ih decorators hm hlen, nofun⟩
    cases ds <;> rfl
  | returnValue value =>
    exact .of_simple rfl (fun _ => rfl) rfl fun n rest hlen =>
      simple_return value (Nat.le_of_succ_le hlen)
  | @ifElse t e b o test nonempty body orelse ihb iho =>
    exact ⟨fun rest => rfl, fun m n rest hm hrest hlen =>
      statementRule_word (by simp) (branchRule_reads test nonempty ihb iho hm hrest hlen),
      fun _ m n rest hm hrest hlen => branchRule_reads test nonempty ihb iho hm hrest hlen⟩
  | @whileLoop t e b o test nonempty body orelse ihb iho =>
    exact ⟨fun rest => rfl, fun m n rest hm hrest hlen =>
      statementRule_word (by simp) (whileRule_reads test nonempty ihb iho hm hrest hlen), nofun⟩
  | @forLoop t e i b o target iter nonempty body orelse ihb iho =>
    exact ⟨fun rest => rfl, fun m n rest hm hrest hlen =>
      statementRule_word (by simp) (forRule_reads target iter nonempty ihb iho hm hrest hlen), nofun⟩
  | tryExcept handled nonempty body types names blocks handlers orelse finalbody ihb ihh iho ihf =>
    exact ⟨fun rest => rfl, fun m n rest hm hrest hlen =>
      statementRule_word (by simp)
        (tryRule_reads handled nonempty ihb types names blocks ihh iho ihf hm hrest hlen), nofun⟩
  | raise exc =>
    exact .of_simple rfl (fun _ => rfl) rfl fun n rest hlen =>
      simple_raise exc (Nat.le_of_succ_le hlen)
  | breakLoop | continueLoop | pass =>
    exact .of_simple rfl (fun _ => rfl) rfl fun n rest _ => simple_word (by simp)
  | @scopeDecl t nonlocal names nonempty named =>
    refine .of_simple rfl (fun _ => ?_) rfl fun n rest _ => simple_scopeDecl nonempty
    cases nonlocal <;> rfl

/-- The statements of a module are read up to the end of the input. -/
theorem moduleLoop_reads (hss : ∀ s ∈ ss, Recited bare chained s) (hm : m ≤ n)
    (hlen : (outlined (blockOutline bare chained ss .if_) ++ [Lexeme.layout .endOfInput]).length ≤ m)
    (hturns : (outlined (blockOutline bare chained ss .if_) ++
      [Lexeme.layout .endOfInput]).length ≤ turns) :
    Yields (List.map Stmt.unplaced) (moduleLoop (.level (.level n) m) turns) (ss.map Stmt.unplaced)
      (outlined (blockOutline bare chained ss .if_) ++ [Lexeme.layout .endOfInput])
      [Lexeme.layout .endOfInput] := by
  induction ss generalizing turns with
  | nil =>
    obtain ⟨turns, rfl⟩ : ∃ k, turns = k + 1 := ⟨turns - 1, by
      rw [List.length_append, List.length_singleton] at hturns
      omega⟩
    exact .peek (.pure ⟨rfl, rfl⟩)
  | cons s ss ih =>
    have hs := hss s List.mem_cons_self
    have hrest : ∀ s ∈ ss, Recited bare chained s := fun s' hs' => hss s' (List.mem_cons_of_mem _ hs')
    have hpos := hs.length_pos
    rw [blockOutline, outlined_append, List.append_assoc] at hlen hturns ⊢
    have hnext := endsClauses_block [Lexeme.layout .endOfInput] hrest (by simp [EndsClauses])
    have hstarts := hs.starts
      (outlined (blockOutline bare chained ss .if_) ++ [Lexeme.layout .endOfInput])
    obtain ⟨m, rfl⟩ : ∃ k, m = k + 1 := ⟨m - 1, by rw [List.length_append] at hlen; omega⟩
    obtain ⟨turns, rfl⟩ : ∃ k, turns = k + 1 := ⟨turns - 1, by rw [List.length_append] at hturns; omega⟩
    refine .peek ?_
    split
    · rename_i hk
      exact absurd hk (ne_of_startsStatement hstarts rfl)
    · rename_i hk
      exact absurd hk (ne_of_startsStatement hstarts rfl)
    · refine (hs.reads m n _ hm hnext hlen).bind fun a ha => ?_
      rw [List.length_append] at hlen hturns
      exact (ih hrest (by omega) (by omega)).bind fun as has => .pure ⟨by simp [ha, has], rfl⟩

/-- The statements of a module are read on the levels that the length of the lexemes allows. -/
theorem readStatements_reads (hss : ∀ s ∈ ss, Recited bare chained s) :
    Yields (List.map Stmt.unplaced) readStatements (ss.map Stmt.unplaced)
      (outlined (blockOutline bare chained ss .if_) ++ [Lexeme.layout .endOfInput])
      [Lexeme.layout .endOfInput] := by
  unfold readStatements readGrammar
  simp only [bind_assoc, pure_bind]
  exact .remaining (.remaining (.remaining
    (moduleLoop_reads hss (Nat.le_refl _) (Nat.le_succ _) (Nat.le_succ _))))

theorem PlainStmt.tidy_module (h : ∀ s ∈ ss, PlainStmt s) :
    TidyLines (blockOutline bare chained ss .if_) :=
  tidy_block (fun s hs => (h s hs).tidy) .if_

/-- A module of plain statements is read back, up to spans, from every text in which its lines are laid
out. -/
theorem readModule_laid (bare : Bool) (chained : Stmt → Bool) {body : List Stmt} {text : List Char}
    (h : ∀ s ∈ body, PlainStmt s) (laid : LaidOut 0 (blockOutline bare chained body .if_) text []) :
    ∃ m, readModule text = .ok m ∧ m.body.map Stmt.unplaced = body.map Stmt.unplaced := by
  obtain ⟨tokens, htokens, hlexemes⟩ := laid.tokenize_eq (PlainStmt.tidy_module h)
  obtain ⟨ss, c, hrun, hss, -⟩ :=
    readStatements_reads (fun s hs => (h s hs).recited) (.ofTokens tokens) hlexemes
  have hfront : readFront readStatements text = .ok (ss, c) := bind_eq_ok.2 ⟨_, htokens, hrun⟩
  exact ⟨⟨⟨0, text.length⟩, ss⟩, bind_eq_ok.2 ⟨_, hfront, rfl⟩, hss⟩

/-- A loop around a conditional with an `elif` clause: its blocks have margins of their own, a comment and
a blank line stand before the first line of a block, several blocks end at once, and the last line has no
end. -/
theorem readModule_while : ∃ m,
    readModule ("while x :\n  # note\n\n  if y :\n     break\n  elif z :\n   pass\n" ++
        "x = y = 1").toList = .ok m ∧
      m.body.map Stmt.unplaced =
        [.whileLoop default (.name default "x")
          [.ifElse default (.name default "y") [.breakLoop default]
            [.ifElse default (.name default "z") [.pass default] []]] [],
         .assign default [.name default "x", .name default "y"] (.constant default (.int 1))] := by
  have x : Plain (.name default "x") := .name (by decide)
  have y : Plain (.name default "y") := .name (by decide)
  have z : Plain (.name default "z") := .name (by decide)
  have one : Plain (.constant default (.int 1)) := .constant (show (0 : Int) ≤ 1 by decide)
  have elif : PlainStmt (.ifElse default (.name default "z") [.pass default] []) :=
    .ifElse z (by simp) (by simpa using .pass) (by simp)
  have test : PlainStmt (.ifElse default (.name default "y") [.breakLoop default]
      [.ifElse default (.name default "z") [.pass default] []]) :=
    .ifElse y (by simp) (by simpa using .breakLoop) (by simpa using elif)
  have loop : PlainStmt (.whileLoop default (.name default "x")
      [.ifElse default (.name default "y") [.breakLoop default]
        [.ifElse default (.name default "z") [.pass default] []]] []) :=
    .whileLoop x (by simp) (by simpa using test) (by simp)
  have assign : PlainStmt (.assign default [.name default "x", .name default "y"]
      (.constant default (.int 1))) :=
    .assign (by simp) (by simp [x, y]) one
  refine readModule_laid true (fun _ => true)
    (List.forall_mem_cons.2 ⟨loop, List.forall_mem_singleton.2 assign⟩) ?_
  exact @LaidOut.block 0 2 _ _ _ _ _ _ (by simp [blockOutline, Stmt.outline]) (by decide)
    (@LaidOut.empty _ _ [' ', ' '] "# note".toList _ _ _ (by simp [Text.isIndent]) (by simp)
      (by decide) (.inl rfl)
      (@LaidOut.empty _ _ [] [] _ _ _ (by simp) (by simp) (by simp) (.inl rfl)
        (@LaidOut.block _ 3 _ _ _ _ _ _ (by simp [blockOutline, Stmt.outline]) (by decide)
          (.line (.inl rfl) .done)
          (@LaidOut.block _ 1 _ _ _ _ _ _ (by simp [blockOutline, Stmt.outline]) (by decide)
            (.line (.inl rfl) .done) .done))))
    (.line (.inr ⟨rfl, rfl⟩) .done)

end

end Hoist.Surface
