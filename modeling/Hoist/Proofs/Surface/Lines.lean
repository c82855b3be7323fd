import Hoist.Proofs.Surface.Outline
import Hoist.Proofs.Surface.Plain
import Hoist.Surface.Grammar.Statement

/-!
# How statements are written

The reference form of a statement is an outline: one line for a simple statement, and for a compound
statement a line for each of its clauses, with the statements of the clause below it. A conditional in
the other branch of another one, where it is the only statement, may follow as an `elif` clause;
`chained` chooses the conditionals that do.
-/

namespace Hoist.Surface

/-- The lexeme of an augmented assignment with an operator. -/
def Operator.augmented : Operator → List Lexeme
  | .add => [.mark .plusEq]
  | .sub => [.mark .minusEq]
  | .mult => [.mark .starEq]
  | .matMult => [.mark .atEq]
  | .div => [.mark .slashEq]
  | .floorDiv => [.mark .floorDivEq]
  | .mod => [.mark .percentEq]
  | .pow => [.mark .powEq]
  | .lshift => [.mark .lshiftEq]
  | .rshift => [.mark .rshiftEq]
  | .bitOr => [.mark .pipeEq]
  | .bitXor => [.mark .caretEq]
  | .bitAnd => [.mark .ampersandEq]
  | _ => []

/-- The form of a value that may be missing at the end of a line. -/
def valueForm (bare : Bool) : Option Expr → List Lexeme
  | none => []
  | some e => e.writeList bare 14

/-- The form of the targets of an assignment. -/
def targetForms (bare : Bool) (ts : List Expr) : List Lexeme :=
  ts.flatMap fun t => t.writeList bare 14 ++ [.mark .equal]

/-- The form of some names. -/
def nameForms (names : List String) : List Lexeme := commas (names.map ([.name ·]))

/-- What the handlers of a try statement take and how they name it. -/
def handlerForm (bare : Bool) : Option Expr → Option String → List Lexeme
  | none, _ => []
  | some t, none => t.write bare 14
  | some t, some n => t.write bare 14 ++ [.word .as_, .name n]

/-- The lines of decorators. -/
def decoratorLines (bare : Bool) (ds : List Expr) : List Outline :=
  ds.map fun d => .line (.mark .at :: d.write bare 14) []

/-- A line that ends with a colon, with its block. -/
def clause (ls : List Lexeme) (block : List Outline) : Outline := .line (ls ++ [.mark .colon]) block

/-- The clause of a keyword, which is left out without a block. -/
def optionalClause (w : Word) (block : List Outline) : List Outline :=
  if block.isEmpty then [] else [clause [.word w] block]

/-- Whether the other branch of a conditional follows as an `elif` clause. -/
def followsChained (chained : Stmt → Bool) : List Stmt → Bool
  | [.ifElse s t b o] => chained (.ifElse s t b o)
  | _ => false

section

variable (bare : Bool) (chained : Stmt → Bool)

mutual

/-- The lines of a statement; the word stands first in a conditional. -/
def Stmt.outline : Stmt → Word → List Outline
  | .expr _ v, _ => [.line (v.writeList bare 14) []]
  | .assign _ ts v, _ => [.line (targetForms bare ts ++ v.writeList bare 14) []]
  | .augAssign _ t op v, _ =>
    [.line (t.writeList bare 14 ++ (op.augmented ++ v.writeList bare 14)) []]
  | .functionDef _ f ps b ds, _ =>
    decoratorLines bare ds ++
      [clause (.word .def_ :: .name f :: wrapped (paramLexemes ps)) (blockOutline b .if_)]
  | .returnValue _ v, _ => [.line (.word .return_ :: valueForm bare v) []]
  | .ifElse _ t b o, w =>
    clause (.word w :: t.write bare 14) (blockOutline b .if_) ::
      if followsChained chained o then blockOutline o .elif_
      else optionalClause .else_ (blockOutline o .if_)
  | .whileLoop _ t b o, _ =>
    clause (.word .while_ :: t.write bare 14) (blockOutline b .if_) ::
      optionalClause .else_ (blockOutline o .if_)
  | .forLoop _ t i b o, _ =>
    clause (.word .for_ :: (t.writeList bare 9 ++ .word .in_ :: i.writeList bare 14))
        (blockOutline b .if_) ::
      optionalClause .else_ (blockOutline o .if_)
  | .tryExcept _ b hs o f, _ =>
    clause [.word .try_] (blockOutline b .if_) ::
      (handlerOutline hs ++ (optionalClause .else_ (blockOutline o .if_) ++
        optionalClause .finally_ (blockOutline f .if_)))
  | .raise _ e, _ => [.line (.word .raise_ :: valueForm bare e) []]
  | .breakLoop _, _ => [.line [.word .break_] []]
  | .continueLoop _, _ => [.line [.word .continue_] []]
  | .pass _, _ => [.line [.word .pass_] []]
  | .scopeDecl _ nonlocal names, _ =>
    [.line (.word (if nonlocal then .nonlocal_ else .global_) :: nameForms names) []]

/-- The lines of some statements. -/
def blockOutline : List Stmt → Word → List Outline
  | [], _ => []
  | s :: ss, w => s.outline w ++ blockOutline ss w

/-- The clauses of the handlers of a try statement. -/
def handlerOutline : List (Handler Stmt) → List Outline
  | [] => []
  | ⟨_, t, n, b⟩ :: hs =>
    clause (.word .except_ :: handlerForm bare t n) (blockOutline b .if_) :: handlerOutline hs

end

end

/-- The statements that have a reference form. -/
inductive PlainStmt : Stmt → Prop
  | expr {s v} (value : Plain v) : PlainStmt (.expr s v)
  | assign {s ts v} (nonempty : ts ≠ []) (targets : ∀ t ∈ ts, Plain t) (value : Plain v) :
      PlainStmt (.assign s ts v)
  | augAssign {s t op v} (augments : op.isBinary = true) (target : Plain t) (value : Plain v) :
      PlainStmt (.augAssign s t op v)
  | functionDef {s f ps b ds} (named : Lexeme.IsName f) (params : ps.ArePlain) (nonempty : b ≠ [])
      (body : ∀ x ∈ b, PlainStmt x) (decorators : ∀ d ∈ ds, Plain d) :
      PlainStmt (.functionDef s f ps b ds)
  | returnValue {s v} (value : ∀ e ∈ v, Plain e) : PlainStmt (.returnValue s v)
  | ifElse {s t b o} (test : Plain t) (nonempty : b ≠ []) (body : ∀ x ∈ b, PlainStmt x)
      (orelse : ∀ x ∈ o, PlainStmt x) : PlainStmt (.ifElse s t b o)
  | whileLoop {s t b o} (test : Plain t) (nonempty : b ≠ []) (body : ∀ x ∈ b, PlainStmt x)
      (orelse : ∀ x ∈ o, PlainStmt x) : PlainStmt (.whileLoop s t b o)
  | forLoop {s t i b o} (target : Plain t) (iter : Plain i) (nonempty : b ≠ [])
      (body : ∀ x ∈ b, PlainStmt x) (orelse : ∀ x ∈ o, PlainStmt x) : PlainStmt (.forLoop s t i b o)
  | tryExcept {s b hs o f} (handled : hs ≠ [] ∨ f ≠ []) (nonempty : b ≠ [])
      (body : ∀ x ∈ b, PlainStmt x) (types : ∀ h ∈ hs, ∀ t ∈ h.type?, Plain t)
      (names : ∀ h ∈ hs, ∀ n ∈ h.name?, Lexeme.IsName n ∧ h.type? ≠ none)
      (blocks : ∀ h ∈ hs, h.body ≠ []) (handlers : ∀ h ∈ hs, ∀ x ∈ h.body, PlainStmt x)
      (orelse : ∀ x ∈ o, PlainStmt x) (finalbody : ∀ x ∈ f, PlainStmt x) :
      PlainStmt (.tryExcept s b hs o f)
  | raise {s e} (exc : ∀ x ∈ e, Plain x) : PlainStmt (.raise s e)
  | breakLoop {s} : PlainStmt (.breakLoop s)
  | continueLoop {s} : PlainStmt (.continueLoop s)
  | pass {s} : PlainStmt (.pass s)
  | scopeDecl {s nonlocal names} (nonempty : names ≠ []) (named : ∀ n ∈ names, Lexeme.IsName n) :
      PlainStmt (.scopeDecl s nonlocal names)

section

variable {bare : Bool} {chained : Stmt → Bool} {s : Stmt} {ss : List Stmt} {w : Word} {p : Nat}
  {e : Expr} {ls rest : List Lexeme} {os : List Outline}

theorem Operator.augmented_eq {op : Operator} (h : op.isBinary = true) :
    ∃ m, op.augmented = [.mark m] ∧ Blocks.augmented? (.mark m) = some op ∧
      Kind.isBracket (.mark m) = false ∧ Grammar.startsExpression (.mark m) = false := by
  cases op <;> first
    | exact absurd h (by decide)
    | exact ⟨_, rfl, rfl, rfl, rfl⟩

@[simp] theorem outlined_line (ls : List Lexeme) (os : List Outline) :
    outlined (.line ls [] :: os) = ls ++ .layout .newline :: outlined os := by
  simp [outlined, Outline.lexemes]

/-- The lexemes of a block, from its colon on. -/
def blockLexemes (os : List Outline) : List Lexeme :=
  .mark .colon :: .layout .newline :: .layout .indent :: (outlined os ++ [.layout .dedent])

theorem outlined_clause {block : List Outline} (h : block ≠ []) (ls : List Lexeme)
    (os : List Outline) :
    outlined (clause ls block :: os) = ls ++ (blockLexemes block ++ outlined os) := by
  simp [outlined, Outline.lexemes, clause, blockLexemes, h]

theorem optionalClause_of_ne {block : List Outline} (h : block ≠ []) (w : Word) :
    optionalClause w block = [clause [.word w] block] := if_neg (by simpa using h)

theorem Stmt.outline_ne_nil (s : Stmt) (w : Word) : s.outline bare chained w ≠ [] := by
  cases s <;> simp [outline]

theorem blockOutline_ne_nil (bare : Bool) (chained : Stmt → Bool) (h : ss ≠ []) (w : Word) :
    blockOutline bare chained ss w ≠ [] := by
  obtain ⟨s, ss, rfl⟩ := List.exists_cons_of_ne_nil h
  exact List.append_ne_nil_of_left_ne_nil (s.outline_ne_nil w) _

theorem tidy_value {v : Option Expr} (h : ∀ e ∈ v, Plain e) : Tidy (valueForm bare v) := by
  cases v with
  | none => exact .nil
  | some e => exact (h e rfl).tidy_writeList 14

theorem tidy_targets {ts : List Expr} (h : ∀ t ∈ ts, Plain t) : Tidy (targetForms bare ts) := by
  induction ts with
  | nil => exact .nil
  | cons t ts ih =>
    exact (((h t List.mem_cons_self).tidy_writeList 14).append (.mark _ rfl .nil)).append
      (ih fun t' ht' => h t' (List.mem_cons_of_mem _ ht'))

theorem tidy_names {names : List String} (h : ∀ n ∈ names, Lexeme.IsName n) :
    Tidy (nameForms names) := by
  refine .commas fun ls hls => ?_
  obtain ⟨n, hn, rfl⟩ := List.mem_map.1 hls
  exact .name (h n hn) .nil

theorem tidy_handler {t : Option Expr} {n : Option String} (ht : ∀ e ∈ t, Plain e)
    (hn : ∀ id ∈ n, Lexeme.IsName id ∧ t ≠ none) : Tidy (handlerForm bare t n) := by
  cases t with
  | none => exact .nil
  | some t =>
    have htype : Tidy (t.write bare 14) := (ht t rfl).tidy_write 14
    cases n with
    | none => exact htype
    | some n => exact htype.append (.word _ (.name (hn n rfl).1 .nil))

theorem TidyLines.single (h : Tidy ls) (hne : ls ≠ []) : TidyLines [.line ls []] :=
  .cons h hne .nil .nil

theorem TidyLines.clause {block : List Outline} (h : Tidy ls) (hblock : TidyLines block)
    (hos : TidyLines os) : TidyLines (clause ls block :: os) :=
  .cons (h.append (.mark _ rfl .nil)) (by simp) hblock hos

theorem TidyLines.optional {block : List Outline} (hblock : TidyLines block) (w : Word) :
    TidyLines (optionalClause w block) := by
  unfold optionalClause
  split
  · exact .nil
  · exact .clause (.word _ .nil) hblock .nil

theorem tidy_decorators {ds : List Expr} (h : ∀ d ∈ ds, Plain d) :
    TidyLines (decoratorLines bare ds) := by
  induction ds with
  | nil => exact .nil
  | cons d ds ih =>
    exact .cons (.mark _ rfl ((h d List.mem_cons_self).tidy_write 14)) (by simp) .nil
      (ih fun d' hd' => h d' (List.mem_cons_of_mem _ hd'))

theorem tidy_block (h : ∀ s ∈ ss, ∀ w, TidyLines (s.outline bare chained w)) (w : Word) :
    TidyLines (blockOutline bare chained ss w) := by
  induction ss with
  | nil => exact .nil
  | cons s ss ih =>
    exact (h s List.mem_cons_self w).append (ih fun s' hs' => h s' (List.mem_cons_of_mem _ hs'))

theorem tidy_handlers {hs : List (Handler Stmt)} (ht : ∀ h ∈ hs, ∀ t ∈ h.type?, Plain t)
    (hn : ∀ h ∈ hs, ∀ n ∈ h.name?, Lexeme.IsName n ∧ h.type? ≠ none)
    (hb : ∀ h ∈ hs, ∀ s ∈ h.body, ∀ w, TidyLines (s.outline bare chained w)) :
    TidyLines (handlerOutline bare chained hs) := by
  induction hs with
  | nil => exact .nil
  | cons h hs ih =>
    exact .clause (.word _ (tidy_handler (ht h List.mem_cons_self) (hn h List.mem_cons_self)))
      (tidy_block (hb h List.mem_cons_self) .if_)
      (ih (fun h' hh' => ht h' (List.mem_cons_of_mem _ hh'))
        (fun h' hh' => hn h' (List.mem_cons_of_mem _ hh'))
        fun h' hh' => hb h' (List.mem_cons_of_mem _ hh'))

/-- The lines of a plain statement are cut into their lexemes. -/
theorem PlainStmt.tidy (h : PlainStmt s) (w : Word) : TidyLines (s.outline bare chained w) := by
  induction h generalizing w with
  | expr value => exact .single (value.tidy_writeList 14) (value.writeList_ne_nil (by decide))
  | assign nonempty targets value =>
    exact .single ((tidy_targets targets).append (value.tidy_writeList 14))
      (List.append_ne_nil_of_right_ne_nil _ (value.writeList_ne_nil (by decide)))
  | augAssign augments target value =>
    obtain ⟨m, hop, -, hm, -⟩ := Operator.augmented_eq augments
    refine .single ((target.tidy_writeList 14).append ?_)
      (List.append_ne_nil_of_left_ne_nil (target.writeList_ne_nil (by decide)) _)
    rw [hop]
    exact .mark m hm (value.tidy_writeList 14)
  | functionDef named params nonempty body decorators ih =>
    exact (tidy_decorators decorators).append (.clause
      (.word _ (.name named (tidy_params params).wrapped)) (tidy_block ih .if_) .nil)
  | returnValue value => exact .single (.word _ (tidy_value value)) (by simp)
  | ifElse test nonempty body orelse ihb iho =>
    refine .clause (.word _ (test.tidy_write 14)) (tidy_block ihb .if_) ?_
    split
    · exact tidy_block iho .elif_
    · exact (tidy_block iho .if_).optional .else_
  | whileLoop test nonempty body orelse ihb iho =>
    exact .clause (.word _ (test.tidy_write 14)) (tidy_block ihb .if_)
      ((tidy_block iho .if_).optional .else_)
  | forLoop target iter nonempty body orelse ihb iho =>
    exact .clause (.word _ ((target.tidy_writeList 9).append (.word _ (iter.tidy_writeList 14))))
      (tidy_block ihb .if_) ((tidy_block iho .if_).optional .else_)
  | tryExcept handled nonempty body types names blocks handlers orelse finalbody ihb ihh iho ihf =>
    exact .clause (.word _ .nil) (tidy_block ihb .if_) ((tidy_handlers types names ihh).append
      (((tidy_block iho .if_).optional .else_).append ((tidy_block ihf .if_).optional .finally_)))
  | raise exc => exact .single (.word _ (tidy_value exc)) (by simp)
  | breakLoop | continueLoop | pass => exact .single (.word _ .nil) (by simp)
  | scopeDecl nonempty named => exact .single (.word _ (tidy_names named)) (by simp)

end

end Hoist.Surface
