import Hoist.Proofs.ExpressionRoundTrip
import Hoist.Proofs.Surface.Lines

/-!
# Simple statements are read back

A line that holds a simple statement is read up to its end. The expressions on it end before a token
that neither goes on with a list of expressions nor starts another element of it.
-/

namespace Hoist.Surface

open Grammar Blocks

/-- A list of expressions ends before the next of some lexemes. -/
def EndsList (ls : List Lexeme) : Prop := Stops 15 ls ∧ startsExpression (nextKind ls) = false

section

variable {bare : Bool} {chained : Stmt → Bool} {e v : Expr} {es : List Expr} {n turns start : Nat}
  {s : Stmt} {w : Word} {ls rest : List Lexeme} {names : List String}

theorem endsList_newline : EndsList (.layout .newline :: rest) := ⟨stops_cons (by decide), rfl⟩

theorem endsList_equal : EndsList (.mark .equal :: rest) := ⟨stops_cons (by decide), rfl⟩

theorem endsList_augmented {op : Operator} {m : Mark} (h : augmented? (.mark m) = some op) :
    EndsList (.mark m :: rest) := by
  cases m <;> first
    | exact ⟨stops_cons (by decide), rfl⟩
    | cases h

theorem Plain.entry_list (h : Plain e) : entry (nextKind (e.writeList bare 14 ++ rest)) ≤ 15 :=
  (h.fronted_list (by decide)).entry_append (Nat.le_refl _)

theorem Plain.list_ne (h : Plain e) {k : Kind} (hk : entry k = 16) :
    nextKind (e.writeList bare 14 ++ rest) ≠ k :=
  ne_of_entry h.entry_list (by omega)

/-- A list of expressions is read on the level that the length of the lexemes allows. -/
theorem Plain.testList (h : Plain e) (hends : EndsList rest)
    (hlen : (e.writeList bare 14 ++ rest).length ≤ n) :
    Yields Expr.unplaced (level n).testList e.unplaced (e.writeList bare 14 ++ rest) rest := by
  have hne : e.writeList bare 14 ≠ [] := h.writeList_ne_nil (by decide)
  have hpos := List.length_pos_iff.2 hne
  obtain ⟨n, rfl⟩ : ∃ k, n = k + 1 := ⟨n - 1, by
    rw [List.length_append] at hlen
    omega⟩
  exact h.legible.testList hends.1 hends.2 hlen

theorem Plain.rightSide (h : Plain e) (hends : EndsList rest)
    (hlen : (e.writeList bare 14 ++ rest).length ≤ n) :
    Yields Expr.unplaced (rightSide (level n)) e.unplaced (e.writeList bare 14 ++ rest) rest :=
  .other (h.list_ne rfl) (h.testList hends hlen)

/-- A value that may be missing is read up to the end of the line. -/
theorem valueBeforeEnd_reads {v : Option Expr} (h : ∀ e ∈ v, Plain e)
    (hlen : (valueForm bare v ++ .layout .newline :: rest).length ≤ n) :
    Yields (Option.map Expr.unplaced) (valueBeforeEnd (level n)) (v.map Expr.unplaced)
      (valueForm bare v ++ .layout .newline :: rest) (.layout .newline :: rest) := by
  cases v with
  | none => exact .peek (.pure ⟨rfl, rfl⟩)
  | some e =>
    have he := h e rfl
    have hnewline : nextKind (e.writeList bare 14 ++ .layout .newline :: rest) ≠ .newline :=
      he.list_ne rfl
    have hsemicolon : nextKind (e.writeList bare 14 ++ .layout .newline :: rest) ≠ .mark .semicolon :=
      he.list_ne rfl
    refine .peek ?_
    rw [if_neg (by simp [endsSimple, valueForm, hnewline, hsemicolon])]
    exact (he.testList endsList_newline hlen).bind fun a ha => .pure ⟨by simp [ha], rfl⟩

theorem nameOf_reads (n : String) : Yields id nameOf n (.name n :: rest) rest := by
  refine .expect rfl (by simp) fun t ht => .pure ⟨?_, rfl⟩
  have htext : t.text = n.toList := Token.text_eq ht rfl
  simp [htext]

/-- Names behind commas are read up to something else. -/
theorem nameLoop_reads (hrest : nextKind rest ≠ .mark .comma)
    (hturns : ((names.map ([Lexeme.name ·])).flatMap (Lexeme.mark .comma :: ·) ++ rest).length ≤ turns) :
    Yields id (nameLoop turns) names
      ((names.map ([Lexeme.name ·])).flatMap (Lexeme.mark .comma :: ·) ++ rest) rest := by
  induction names generalizing turns with
  | nil =>
    cases turns with
    | zero => exact .pure ⟨rfl, rfl⟩
    | succ turns => exact .other hrest (.pure ⟨rfl, rfl⟩)
  | cons n names ih =>
    simp only [List.map_cons, List.flatMap_cons, List.cons_append, List.nil_append,
      List.length_cons] at hturns ⊢
    obtain ⟨turns, rfl⟩ : ∃ k, turns = k + 1 := ⟨turns - 1, by omega⟩
    refine .same rfl (.pop (by simp) fun t _ => (nameOf_reads n).bind ?_)
    rintro _ rfl
    refine (ih (by omega)).bind ?_
    rintro _ rfl
    exact .pure ⟨rfl, rfl⟩

/-- Right sides of assignments are read up to the end of the line. -/
theorem assignLoop_reads (h : ∀ e ∈ es, Plain e)
    (hlen : (es.flatMap (.mark .equal :: ·.writeList bare 14) ++ .layout .newline :: rest).length ≤ n)
    (hturns : (es.flatMap (.mark .equal :: ·.writeList bare 14) ++
      .layout .newline :: rest).length ≤ turns) :
    Yields (List.map Expr.unplaced) (assignLoop (level n) turns) (es.map Expr.unplaced)
      (es.flatMap (.mark .equal :: ·.writeList bare 14) ++ .layout .newline :: rest)
      (.layout .newline :: rest) := by
  induction es generalizing turns with
  | nil =>
    cases turns with
    | zero => exact .pure ⟨rfl, rfl⟩
    | succ turns => exact .other (by simp) (.pure ⟨rfl, rfl⟩)
  | cons e es ih =>
    have hends : EndsList (es.flatMap (.mark .equal :: ·.writeList bare 14) ++
        .layout .newline :: rest) := by
      cases es with
      | nil => exact endsList_newline
      | cons => exact endsList_equal
    rw [List.flatMap_cons, List.cons_append, List.cons_append, List.append_assoc] at hlen hturns ⊢
    rw [List.length_cons] at hlen hturns
    obtain ⟨turns, rfl⟩ : ∃ k, turns = k + 1 := ⟨turns - 1, by omega⟩
    refine .same rfl (.pop (by simp) fun t _ => ?_)
    refine ((h e List.mem_cons_self).rightSide hends (by omega)).bind fun a ha => ?_
    rw [List.length_append] at hlen hturns
    exact (ih (fun e' he' => h e' (List.mem_cons_of_mem _ he')) (by omega) (by omega)).bind
      fun as has => .pure ⟨by simp [ha, has], rfl⟩

/-- The targets of an assignment and its value are the first of them and right sides. -/
theorem targetForms_append (t : Expr) (ts : List Expr) (v : Expr) :
    targetForms bare (t :: ts) ++ v.writeList bare 14 =
      t.writeList bare 14 ++ (ts ++ [v]).flatMap (.mark .equal :: ·.writeList bare 14) := by
  induction ts generalizing t with
  | nil => simp [targetForms]
  | cons t' ts ih =>
    have hstep := ih t'
    simp only [targetForms, List.flatMap_cons, List.append_assoc, List.cons_append,
      List.nil_append] at hstep ⊢
    rw [hstep]

/-- An expression, or the first target of an assignment, and what follows it. -/
theorem expressionStatement_reads (start : Nat) (es : List Expr) (h : Plain e) (hes : ∀ x ∈ es, Plain x)
    (hlen : (e.writeList bare 14 ++ (es.flatMap (.mark .equal :: ·.writeList bare 14) ++
      .layout .newline :: rest)).length ≤ n) :
    Yields Stmt.unplaced (expressionStatement (level n) start)
      (match es.getLast? with
        | none => .expr default e.unplaced
        | some v => .assign default ((e :: es.dropLast).map Expr.unplaced) v.unplaced)
      (e.writeList bare 14 ++ (es.flatMap (.mark .equal :: ·.writeList bare 14) ++
        .layout .newline :: rest)) (.layout .newline :: rest) := by
  have hends : EndsList (es.flatMap (.mark .equal :: ·.writeList bare 14) ++ .layout .newline :: rest) ∧
      augmented? (nextKind (es.flatMap (.mark .equal :: ·.writeList bare 14) ++
        .layout .newline :: rest)) = none := by
    cases es with
    | nil => exact ⟨endsList_newline, rfl⟩
    | cons => exact ⟨endsList_equal, rfl⟩
  refine (h.rightSide hends.1 hlen).bind fun first hfirst => .peek ?_
  rw [hends.2]
  rw [List.length_append] at hlen
  refine .remaining ((assignLoop_reads hes (by omega) (Nat.le_refl _)).bind fun others hothers =>
    .spanFrom fun span => ?_)
  have hlast : others.getLast?.map Expr.unplaced = es.getLast?.map Expr.unplaced := by
    rw [← List.getLast?_map, hothers, List.getLast?_map]
  have hinit : others.dropLast.map Expr.unplaced = es.dropLast.map Expr.unplaced := by
    rw [List.map_dropLast, hothers, List.map_dropLast]
  cases hes' : es.getLast? <;> cases hothers' : others.getLast? <;> simp only [hes', hothers'] at hlast ⊢
  · exact .pure ⟨by simp [Stmt.unplaced, hfirst], rfl⟩
  · cases hlast
  · cases hlast
  · exact .pure ⟨by simp [Stmt.unplaced, hfirst, hinit, Option.some.inj hlast], rfl⟩

/-- An augmented assignment. -/
theorem augAssign_reads {op : Operator} (he : Plain e) (hv : Plain v) (hop : op.isBinary = true)
    (hlen : (e.writeList bare 14 ++ (op.augmented ++ (v.writeList bare 14 ++
      .layout .newline :: rest))).length ≤ n) :
    Yields Stmt.unplaced (expressionStatement (level n) start)
      (.augAssign default e.unplaced op v.unplaced)
      (e.writeList bare 14 ++ (op.augmented ++ (v.writeList bare 14 ++ .layout .newline :: rest)))
      (.layout .newline :: rest) := by
  obtain ⟨m, hform, hm, -, -⟩ := Operator.augmented_eq hop
  rw [hform, List.singleton_append] at hlen ⊢
  refine (he.rightSide (endsList_augmented hm) hlen).bind fun target htarget => .peek ?_
  rw [nextKind_cons, Lexeme.kind_mark, hm]
  simp only [List.length_append, List.length_cons] at hlen
  refine .pop (by simp) fun t _ => ?_
  refine (hv.rightSide endsList_newline ?_).bind fun value hvalue => .spanFrom fun span => .pure ?_
  · simp only [List.length_append, List.length_cons]
    omega
  · exact ⟨by simp [Stmt.unplaced, htarget, hvalue], rfl⟩

/-- Whether a simple statement may start with a token of a kind. -/
def startsSimple : Kind → Bool
  | .word .return_ | .word .pass_ | .word .break_ | .word .continue_ | .word .raise_
  | .word .global_ | .word .nonlocal_ => true
  | k => decide (entry k ≤ 15)

theorem startsSimple_of_entry {k : Kind} (h : entry k ≤ 15) : startsSimple k = true := by
  unfold startsSimple
  split
  all_goals first | rfl | exact decide_eq_true h

section Simple

variable {g : Grammar} {b : Blocks} {α : Type} {post : Stmt → List Lexeme → Prop}
  {post' : List Stmt → List Lexeme → Prop}

/-- A statement that starts like an expression is one, or an assignment. -/
theorem simple_expression (hentry : entry (nextKind ls) ≤ 15)
    (h : ∀ start, Reads (expressionStatement g start) ls post) : Reads (simple g) ls post := by
  obtain _ | ⟨x, ls⟩ := ls
  · exact absurd hentry (by decide)
  refine .next fun t ht => ?_
  have hk : t.kind = x.kind := congrArg Lexeme.kind ht
  rw [nextKind_cons, ← hk] at hentry
  split
  case h_8 => exact h t.start
  all_goals
    rename_i hword
    rw [hword] at hentry
    exact absurd hentry (by decide)

/-- A line with a simple statement alone is read up to its end. -/
theorem simpleLine_reads {a : Stmt} (h : Yields Stmt.unplaced (simple g) a ls (.layout .newline :: rest)) :
    Yields (List.map Stmt.unplaced) (simpleLine g) [a] ls rest := by
  have hloop : Yields (List.map Stmt.unplaced) (simpleLoop g (ls.length + 1)) [a] ls
      (.layout .newline :: rest) :=
    h.bind fun s hs => .other (by simp) (.pure ⟨by simp [hs], rfl⟩)
  exact .remaining (hloop.bind fun ss hss => .expect rfl (by simp) fun t _ => .pure ⟨hss, rfl⟩)

/-- A statement that starts like a simple one is read with its line. -/
theorem statementRule_simple (hstarts : startsSimple (nextKind ls) = true)
    (h : Reads (simpleLine g) ls post') : Reads (statementRule g b) ls post' := by
  obtain _ | ⟨x, ls⟩ := ls
  · cases hstarts
  refine .next fun t ht => ?_
  have hk : t.kind = x.kind := congrArg Lexeme.kind ht
  rw [nextKind_cons, ← hk] at hstarts
  split
  case h_8 => exact h
  all_goals
    rename_i hword
    rw [hword] at hstarts
    cases hstarts

end Simple

theorem simple_expr {t : Span} (h : Plain e)
    (hlen : (e.writeList bare 14 ++ .layout .newline :: rest).length ≤ n) :
    Yields Stmt.unplaced (simple (level n)) (Stmt.expr t e).unplaced
      (e.writeList bare 14 ++ .layout .newline :: rest) (.layout .newline :: rest) :=
  simple_expression h.entry_list fun start => expressionStatement_reads start [] h (by simp) hlen

theorem simple_assign {t : Span} {ts : List Expr} (hne : ts ≠ []) (hts : ∀ x ∈ ts, Plain x)
    (hv : Plain v)
    (hlen : (targetForms bare ts ++ (v.writeList bare 14 ++ .layout .newline :: rest)).length ≤ n) :
    Yields Stmt.unplaced (simple (level n)) (Stmt.assign t ts v).unplaced
      (targetForms bare ts ++ (v.writeList bare 14 ++ .layout .newline :: rest))
      (.layout .newline :: rest) := by
  obtain ⟨e, ts, rfl⟩ := List.exists_cons_of_ne_nil hne
  have he := hts e List.mem_cons_self
  have hes : ∀ x ∈ ts ++ [v], Plain x := by
    simpa [or_imp, forall_and, hv] using fun x hx => hts x (List.mem_cons_of_mem _ hx)
  rw [← List.append_assoc, targetForms_append, List.append_assoc] at hlen ⊢
  have hread := fun start => expressionStatement_reads start _ he hes hlen
  simp only [List.getLast?_append, List.getLast?_singleton, List.dropLast_concat, Option.some_or] at hread
  exact simple_expression he.entry_list hread

theorem simple_augAssign {t : Span} {op : Operator} (he : Plain e) (hv : Plain v)
    (hop : op.isBinary = true)
    (hlen : (e.writeList bare 14 ++ (op.augmented ++ (v.writeList bare 14 ++
      .layout .newline :: rest))).length ≤ n) :
    Yields Stmt.unplaced (simple (level n)) (Stmt.augAssign t e op v).unplaced
      (e.writeList bare 14 ++ (op.augmented ++ (v.writeList bare 14 ++ .layout .newline :: rest)))
      (.layout .newline :: rest) :=
  simple_expression he.entry_list fun _ => augAssign_reads he hv hop hlen

theorem simple_return {t : Span} {v : Option Expr} (h : ∀ e ∈ v, Plain e)
    (hlen : (valueForm bare v ++ .layout .newline :: rest).length ≤ n) :
    Yields Stmt.unplaced (simple (level n)) (Stmt.returnValue t v).unplaced
      (.word .return_ :: (valueForm bare v ++ .layout .newline :: rest)) (.layout .newline :: rest) := by
  refine .next fun t ht => ?_
  have hk : t.kind = .word .return_ := congrArg Lexeme.kind ht
  rw [hk]
  exact .pop (by simp) fun _ _ => (valueBeforeEnd_reads h hlen).bind fun a ha =>
    .spanFrom fun span => .pure ⟨by simp [Stmt.unplaced, ha], rfl⟩

theorem simple_raise {t : Span} {v : Option Expr} (h : ∀ e ∈ v, Plain e)
    (hlen : (valueForm bare v ++ .layout .newline :: rest).length ≤ n) :
    Yields Stmt.unplaced (simple (level n)) (Stmt.raise t v).unplaced
      (.word .raise_ :: (valueForm bare v ++ .layout .newline :: rest)) (.layout .newline :: rest) := by
  refine .next fun t ht => ?_
  have hk : t.kind = .word .raise_ := congrArg Lexeme.kind ht
  rw [hk]
  exact .pop (by simp) fun _ _ => (valueBeforeEnd_reads h hlen).bind fun a ha =>
    .spanFrom fun span => .pure ⟨by simp [Stmt.unplaced, ha], rfl⟩

/-- A statement that is a keyword alone. -/
theorem simple_word {g : Grammar} {t : Span} {w : Word} {make : Span → Stmt}
    (hmake : (w, make) ∈
      [(.pass_, Stmt.pass), (.break_, Stmt.breakLoop), (.continue_, Stmt.continueLoop)]) :
    Yields Stmt.unplaced (simple g) (make t).unplaced (.word w :: rest) rest := by
  refine .next fun t ht => ?_
  have hk : t.kind = .word w := congrArg Lexeme.kind ht
  rw [hk]
  simp only [List.mem_cons, Prod.mk.injEq, List.not_mem_nil, or_false] at hmake
  obtain ⟨rfl, rfl⟩ | ⟨rfl, rfl⟩ | ⟨rfl, rfl⟩ := hmake
  all_goals exact .pop (by simp) fun _ _ => .spanFrom fun span => .pure ⟨rfl, rfl⟩

theorem simple_scopeDecl {g : Grammar} {t : Span} {nonlocal : Bool} (hne : names ≠ []) :
    Yields Stmt.unplaced (simple g) (Stmt.scopeDecl t nonlocal names).unplaced
      (.word (if nonlocal then .nonlocal_ else .global_) :: (nameForms names ++ .layout .newline :: rest))
      (.layout .newline :: rest) := by
  obtain ⟨first, others, rfl⟩ := List.exists_cons_of_ne_nil hne
  have hnames : ∀ t : Token, Reads (do
      let first ← nameOf
      let others ← nameLoop (← Reader.remaining)
      return Stmt.scopeDecl (← spanFrom t.start) nonlocal (first :: others))
      (nameForms (first :: others) ++ .layout .newline :: rest) fun a ls =>
        a.unplaced = .scopeDecl default nonlocal (first :: others) ∧ ls = .layout .newline :: rest := by
    intro t
    rw [nameForms, List.map_cons, commas_cons, List.append_assoc, List.singleton_append]
    refine (nameOf_reads first).bind ?_
    rintro _ rfl
    refine .remaining ((nameLoop_reads (by simp) (Nat.le_refl _)).bind ?_)
    rintro _ rfl
    exact .spanFrom fun span => .pure ⟨rfl, rfl⟩
  refine .next fun t ht => ?_
  have hk : t.kind = .word (if nonlocal then .nonlocal_ else .global_) := congrArg Lexeme.kind ht
  rw [hk]
  cases nonlocal
  all_goals exact .pop (by simp) fun _ _ => hnames t

end

end Hoist.Surface
