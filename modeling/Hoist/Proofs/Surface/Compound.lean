import Hoist.Proofs.Surface.Statements

/-!
# Compound statements are read back

A compound statement goes on as long as clauses of its own follow, so the reader of a statement has to
find something else behind it: the start of another statement, the end of the block around it, or the end
of the input. Inside a block that is always so, and the clauses of a statement inside a block cannot be
taken for those of a statement around it.
-/

namespace Hoist.Surface

open Grammar Blocks

/-- Whether a statement may start with a token of a kind. -/
def startsStatement : Kind → Bool
  | .mark .at | .word .def_ | .word .if_ | .word .while_ | .word .for_ | .word .try_ => true
  | k => startsSimple k

/-- The next of some lexemes is no clause of a compound statement but the first. -/
def EndsClauses (ls : List Lexeme) : Prop :=
  nextKind ls ∉ [Kind.word .elif_, .word .else_, .word .except_, .word .finally_]

/-- The form of a statement is read back wherever no clause follows it, and that of a conditional also
as an `elif` clause of another one. -/
structure Recited (bare : Bool) (chained : Stmt → Bool) (s : Stmt) : Prop where
  starts (rest : List Lexeme) :
    startsStatement (nextKind (outlined (s.outline bare chained .if_) ++ rest)) = true
  reads (m n : Nat) (rest : List Lexeme) (hm : m < n) (hrest : EndsClauses rest)
    (hlen : (outlined (s.outline bare chained .if_) ++ rest).length ≤ m + 1) :
    Yields (List.map Stmt.unplaced) (statementRule (.level n) (.level (.level n) m)) [s.unplaced]
      (outlined (s.outline bare chained .if_) ++ rest) rest
  branch (hs : followsChained chained [s] = true) (m n : Nat) (rest : List Lexeme) (hm : m < n)
    (hrest : EndsClauses rest)
    (hlen : (outlined (s.outline bare chained .elif_) ++ rest).length ≤ m + 1) :
    Yields Stmt.unplaced (branchRule (.level n) (.level (.level n) m)) s.unplaced
      (outlined (s.outline bare chained .elif_) ++ rest) rest

theorem startsStatement_of_simple {k : Kind} (h : startsSimple k = true) : startsStatement k = true := by
  unfold startsStatement
  split
  all_goals first | rfl | exact h

section

variable {bare : Bool} {chained : Stmt → Bool} {m n turns start : Nat} {s : Stmt} {ss : List Stmt}
  {e : Expr} {w : Word} {ls rest : List Lexeme} {k : Kind}

theorem EndsClauses.ne (h : EndsClauses ls)
    (hk : k ∈ [Kind.word .elif_, .word .else_, .word .except_, .word .finally_]) : nextKind ls ≠ k := by
  rintro rfl
  exact h hk

theorem endsClauses_of_starts (h : startsStatement (nextKind ls) = true) : EndsClauses ls := by
  intro hmem
  simp only [List.mem_cons, List.not_mem_nil, or_false] at hmem
  rcases hmem with hk | hk | hk | hk <;> rw [hk] at h <;> cases h

theorem ne_of_startsStatement (h : startsStatement (nextKind ls) = true)
    (hk : startsStatement k = false) : nextKind ls ≠ k := by
  rintro rfl
  rw [h] at hk
  cases hk

theorem Recited.length_pos (h : Recited bare chained s) :
    0 < (outlined (s.outline bare chained .if_)).length := by
  rw [List.length_pos_iff]
  intro hnil
  have hstarts := h.starts []
  rw [hnil] at hstarts
  cases hstarts

theorem endsClauses_block (rest : List Lexeme) (hss : ∀ s ∈ ss, Recited bare chained s)
    (hrest : EndsClauses rest) :
    EndsClauses (outlined (blockOutline bare chained ss .if_) ++ rest) := by
  cases ss with
  | nil => exact hrest
  | cons s ss =>
    rw [blockOutline, outlined_append, List.append_assoc]
    exact endsClauses_of_starts ((hss s List.mem_cons_self).starts _)

/-- The statements of a block are read up to its end. -/
theorem statementLoop_reads (hss : ∀ s ∈ ss, Recited bare chained s) (hm : m ≤ n)
    (hlen : (outlined (blockOutline bare chained ss .if_) ++ .layout .dedent :: rest).length ≤ m)
    (hturns : (outlined (blockOutline bare chained ss .if_) ++ .layout .dedent :: rest).length ≤ turns) :
    Yields (List.map Stmt.unplaced) (statementLoop (.level (.level n) m) turns) (ss.map Stmt.unplaced)
      (outlined (blockOutline bare chained ss .if_) ++ .layout .dedent :: rest)
      (.layout .dedent :: rest) := by
  induction ss generalizing turns with
  | nil =>
    cases turns with
    | zero => exact .pure ⟨rfl, rfl⟩
    | succ turns => exact .found rfl (.pure ⟨rfl, rfl⟩)
  | cons s ss ih =>
    have hs := hss s List.mem_cons_self
    have hrest : ∀ s ∈ ss, Recited bare chained s := fun s' hs' => hss s' (List.mem_cons_of_mem _ hs')
    have hpos := hs.length_pos
    rw [blockOutline, outlined_append, List.append_assoc] at hlen hturns ⊢
    have hnext := endsClauses_block (.layout .dedent :: rest) hrest (by simp [EndsClauses])
    obtain ⟨m, rfl⟩ : ∃ k, m = k + 1 := ⟨m - 1, by rw [List.length_append] at hlen; omega⟩
    obtain ⟨turns, rfl⟩ : ∃ k, turns = k + 1 := ⟨turns - 1, by rw [List.length_append] at hturns; omega⟩
    refine .missed (ne_of_startsStatement (hs.starts _) rfl) ?_
    refine (hs.reads m n _ hm hnext hlen).bind fun a ha => ?_
    rw [List.length_append] at hlen hturns
    exact (ih hrest (by omega) (by omega)).bind fun as has => .pure ⟨by simp [ha, has], rfl⟩

/-- A block is read from its colon up to its end. -/
theorem suite_reads (hss : ∀ s ∈ ss, Recited bare chained s) (hm : m ≤ n)
    (hlen : (blockLexemes (blockOutline bare chained ss .if_) ++ rest).length ≤ m) :
    Yields (List.map Stmt.unplaced) (suite (.level n) (.level (.level n) m)) (ss.map Stmt.unplaced)
      (blockLexemes (blockOutline bare chained ss .if_) ++ rest) rest := by
  simp only [blockLexemes, List.cons_append, List.append_assoc, List.nil_append,
    List.length_cons] at hlen ⊢
  refine .expect rfl (by simp) fun t _ => .same rfl (.pop (by simp) fun t _ => ?_)
  refine .expect rfl (by simp) fun t _ => .remaining ?_
  exact (statementLoop_reads hss hm (by omega) (Nat.le_succ _)).bind fun as has =>
    .pop (by simp) fun t _ => .pure ⟨has, rfl⟩

/-- The block of a keyword is read where the keyword stands, and is empty where it does not. -/
theorem optionalSuite_reads (hss : ∀ s ∈ ss, Recited bare chained s) (hm : m ≤ n)
    (hrest : nextKind rest ≠ .word w)
    (hlen : (outlined (optionalClause w (blockOutline bare chained ss .if_)) ++ rest).length ≤ m) :
    Yields (List.map Stmt.unplaced) (optionalSuite (.level n) (.level (.level n) m) w)
      (ss.map Stmt.unplaced)
      (outlined (optionalClause w (blockOutline bare chained ss .if_)) ++ rest) rest := by
  by_cases hne : ss = []
  · subst hne
    exact .other hrest (.pure ⟨rfl, rfl⟩)
  · have hblock := blockOutline_ne_nil bare chained hne .if_
    rw [optionalClause_of_ne hblock, outlined_clause hblock, outlined, List.append_nil,
      List.singleton_append, List.cons_append] at hlen ⊢
    rw [List.length_cons] at hlen
    exact .same rfl (.pop (by simp) fun t _ => suite_reads hss hm (by omega))

theorem optionalClause_next_ne (block : List Outline) (hk : k ≠ .word w) (hrest : nextKind rest ≠ k) :
    nextKind (outlined (optionalClause w block) ++ rest) ≠ k := by
  by_cases hne : block = []
  · subst hne
    exact hrest
  · rw [optionalClause_of_ne hne, outlined_clause hne]
    exact Ne.symm hk

theorem Plain.test (h : Plain e) (hstops : Stops 14 rest)
    (hlen : (e.write bare 14 ++ rest).length ≤ n) :
    Yields Expr.unplaced (Grammar.level n).test e.unplaced (e.write bare 14 ++ rest) rest :=
  h.legible.whole.test hstops hlen

theorem stops_block {p : Nat} (hp : p < 16) (os : List Outline) (rest : List Lexeme) :
    Stops p (blockLexemes os ++ rest) := hp

theorem endsList_block (os : List Outline) (rest : List Lexeme) : EndsList (blockLexemes os ++ rest) :=
  ⟨stops_block (by decide) os rest, rfl⟩

theorem followsChained_cases (bare : Bool) {o : List Stmt} (h : followsChained chained o = true) :
    ∃ s, o = [s] ∧ ∀ w, ∃ ls, outlined (s.outline bare chained w) = .word w :: ls := by
  unfold followsChained at h
  split at h
  · exact ⟨_, rfl, fun w => ⟨_, rfl⟩⟩
  · cases h

/-- A conditional is read from its keyword on. -/
theorem branchRule_reads {t : Span} {b o : List Stmt} (he : Plain e) (hne : b ≠ [])
    (hb : ∀ s ∈ b, Recited bare chained s) (ho : ∀ s ∈ o, Recited bare chained s) (hm : m < n)
    (hrest : EndsClauses rest)
    (hlen : (outlined ((Stmt.ifElse t e b o).outline bare chained w) ++ rest).length ≤ m + 1) :
    Yields Stmt.unplaced (branchRule (.level n) (.level (.level n) m)) (Stmt.ifElse t e b o).unplaced
      (outlined ((Stmt.ifElse t e b o).outline bare chained w) ++ rest) rest := by
  have hblock := blockOutline_ne_nil bare chained hne .if_
  obtain ⟨tail, htail⟩ : ∃ tail, (if followsChained chained o then blockOutline bare chained o .elif_
      else optionalClause .else_ (blockOutline bare chained o .if_)) = tail := ⟨_, rfl⟩
  have hform : outlined ((Stmt.ifElse t e b o).outline bare chained w) ++ rest = .word w ::
      (e.write bare 14 ++
        (blockLexemes (blockOutline bare chained b .if_) ++ (outlined tail ++ rest))) := by
    rw [Stmt.outline, outlined_clause hblock, htail]
    simp
  rw [hform] at hlen ⊢
  rw [List.length_cons] at hlen
  refine .pop (by simp) fun t _ =>
    (he.test (stops_block (by decide) _ _) (by omega)).bind fun test htest => ?_
  rw [List.length_append] at hlen
  refine (suite_reads hb (Nat.le_of_lt hm) (by omega)).bind fun body hbody => ?_
  rw [List.length_append] at hlen
  by_cases hchained : followsChained chained o = true
  · rw [if_pos hchained] at htail
    obtain ⟨s, rfl, hs⟩ := followsChained_cases bare hchained
    obtain ⟨ls, hls⟩ := hs .elif_
    obtain rfl : s.outline bare chained .elif_ = tail := by simpa [blockOutline] using htail
    obtain ⟨m, rfl⟩ : ∃ k, m = k + 1 := ⟨m - 1, by
      rw [hls, List.cons_append, List.length_cons] at hlen
      omega⟩
    have hbranch := (ho s List.mem_cons_self).branch hchained m n rest (by omega) hrest (by omega)
    have helif : Yields (List.map Stmt.unplaced) (do
        return [← branchRule (.level n) (Blocks.level (.level n) m)]) [s.unplaced]
        (outlined (s.outline bare chained .elif_) ++ rest) rest :=
      hbranch.bind fun a ha => .pure ⟨by simp [ha], rfl⟩
    refine .found (by rw [hls]; rfl) (helif.bind fun orelse horelse => .spanFrom fun span => .pure ?_)
    exact ⟨by simp [Stmt.unplaced, htest, hbody, horelse], rfl⟩
  · rw [if_neg hchained] at htail
    subst htail
    refine .missed (optionalClause_next_ne _ (by decide) (hrest.ne (by simp))) ?_
    refine (optionalSuite_reads ho (Nat.le_of_lt hm) (hrest.ne (by simp)) (by omega)).bind
      fun orelse horelse => .spanFrom fun span => .pure ?_
    exact ⟨by simp [Stmt.unplaced, htest, hbody, horelse], rfl⟩

/-- What stands behind the head of a loop: its block, and the block behind `else`. -/
theorem loopBlocks_reads {b o : List Stmt} {make : Span → List Stmt → List Stmt → Stmt} {a : Stmt}
    (hb : ∀ s ∈ b, Recited bare chained s) (ho : ∀ s ∈ o, Recited bare chained s) (hm : m ≤ n)
    (hrest : EndsClauses rest)
    (hlen : (blockLexemes (blockOutline bare chained b .if_) ++
      (outlined (optionalClause .else_ (blockOutline bare chained o .if_)) ++ rest)).length ≤ m)
    (hmake : ∀ span body orelse, body.map Stmt.unplaced = b.map Stmt.unplaced →
      orelse.map Stmt.unplaced = o.map Stmt.unplaced → (make span body orelse).unplaced = a) :
    Yields Stmt.unplaced (do
      let body ← suite (.level n) (.level (.level n) m)
      let orelse ← optionalSuite (.level n) (.level (.level n) m) .else_
      return make (← spanFrom start) body orelse) a
      (blockLexemes (blockOutline bare chained b .if_) ++
        (outlined (optionalClause .else_ (blockOutline bare chained o .if_)) ++ rest)) rest := by
  refine (suite_reads hb hm hlen).bind fun body hbody => ?_
  rw [List.length_append] at hlen
  refine (optionalSuite_reads ho hm (hrest.ne (by simp)) (by omega)).bind fun orelse horelse => ?_
  exact .spanFrom fun span => .pure ⟨hmake span body orelse hbody horelse, rfl⟩

/-- A while loop is read from its keyword on. -/
theorem whileRule_reads {t : Span} {b o : List Stmt} (he : Plain e) (hne : b ≠ [])
    (hb : ∀ s ∈ b, Recited bare chained s) (ho : ∀ s ∈ o, Recited bare chained s) (hm : m < n)
    (hrest : EndsClauses rest)
    (hlen : (outlined ((Stmt.whileLoop t e b o).outline bare chained w) ++ rest).length ≤ m + 1) :
    Yields Stmt.unplaced (whileRule (.level n) (.level (.level n) m)) (Stmt.whileLoop t e b o).unplaced
      (outlined ((Stmt.whileLoop t e b o).outline bare chained w) ++ rest) rest := by
  have hblock := blockOutline_ne_nil bare chained hne .if_
  have hform : outlined ((Stmt.whileLoop t e b o).outline bare chained w) ++ rest = .word .while_ ::
      (e.write bare 14 ++ (blockLexemes (blockOutline bare chained b .if_) ++
        (outlined (optionalClause .else_ (blockOutline bare chained o .if_)) ++ rest))) := by
    rw [Stmt.outline, outlined_clause hblock]
    simp
  rw [hform] at hlen ⊢
  rw [List.length_cons] at hlen
  refine .expect rfl (by simp) fun t _ =>
    (he.test (stops_block (by decide) _ _) (by omega)).bind fun test htest => ?_
  rw [List.length_append] at hlen
  exact loopBlocks_reads hb ho (Nat.le_of_lt hm) hrest (by omega) fun span body orelse hbody horelse =>
    by simp [Stmt.unplaced, htest, hbody, horelse]

/-- A for loop is read from its keyword on. -/
theorem forRule_reads {t : Span} {i : Expr} {b o : List Stmt} (he : Plain e) (hi : Plain i)
    (hne : b ≠ []) (hb : ∀ s ∈ b, Recited bare chained s) (ho : ∀ s ∈ o, Recited bare chained s)
    (hm : m < n) (hrest : EndsClauses rest)
    (hlen : (outlined ((Stmt.forLoop t e i b o).outline bare chained w) ++ rest).length ≤ m + 1) :
    Yields Stmt.unplaced (forRule (.level n) (.level (.level n) m)) (Stmt.forLoop t e i b o).unplaced
      (outlined ((Stmt.forLoop t e i b o).outline bare chained w) ++ rest) rest := by
  have hblock := blockOutline_ne_nil bare chained hne .if_
  have hform : outlined ((Stmt.forLoop t e i b o).outline bare chained w) ++ rest = .word .for_ ::
      (e.writeList bare 9 ++ .word .in_ :: (i.writeList bare 14 ++
        (blockLexemes (blockOutline bare chained b .if_) ++
          (outlined (optionalClause .else_ (blockOutline bare chained o .if_)) ++ rest)))) := by
    rw [Stmt.outline, outlined_clause hblock]
    simp
  rw [hform] at hlen ⊢
  rw [List.length_cons] at hlen
  refine .expect rfl (by simp) fun t _ =>
    (he.legible.targetList (by omega)).bind fun target htarget => ?_
  rw [List.length_append, List.length_cons] at hlen
  refine .expect rfl (by simp) fun _ _ =>
    (hi.testList (endsList_block _ _) (by omega)).bind fun iter hiter => ?_
  rw [List.length_append] at hlen
  exact loopBlocks_reads hb ho (Nat.le_of_lt hm) hrest (by omega) fun span body orelse hbody horelse =>
    by simp [Stmt.unplaced, htarget, hiter, hbody, horelse]

/-- What a handler takes and how it names it is read up to its block. -/
theorem handlerHead_reads {t : Option Expr} {id : Option String} {os : List Outline}
    (ht : ∀ e ∈ t, Plain e) (hid : ∀ a ∈ id, Lexeme.IsName a ∧ t ≠ none)
    (hlen : (handlerForm bare t id ++ (blockLexemes os ++ rest)).length ≤ n) :
    Yields (Prod.map (Option.map Expr.unplaced) (fun a => a)) (handlerHead (.level n))
      (t.map Expr.unplaced, id) (handlerForm bare t id ++ (blockLexemes os ++ rest))
      (blockLexemes os ++ rest) := by
  cases t with
  | none =>
    obtain rfl : id = none := Option.eq_none_iff_forall_not_mem.2 fun a ha => (hid a ha).2 rfl
    exact .found rfl (.pure ⟨rfl, rfl⟩)
  | some e =>
    have he := ht e rfl
    have hcolon : ∀ ls, nextKind (e.write bare 14 ++ ls) ≠ .mark .colon := fun ls =>
      he.legible.whole.next_ne (by decide) (by decide)
    cases id with
    | none =>
      refine .missed (hcolon _) ((he.test (stops_block (by decide) os rest) hlen).bind fun a ha => ?_)
      exact .other (by simp [blockLexemes]) (.pure ⟨by simp [ha], rfl⟩)
    | some id =>
      rw [handlerForm, List.append_assoc] at hlen ⊢
      refine .missed (hcolon _) ((he.test (stops_cons (by decide)) hlen).bind fun a ha => ?_)
      refine .same rfl (.pop (by simp) fun _ _ => (nameOf_reads id).bind ?_)
      rintro _ rfl
      exact .pure ⟨by simp [ha], rfl⟩

/-- The handlers of a try statement are read up to something else. -/
theorem handlerLoop_reads {hs : List (Handler Stmt)} (ht : ∀ h ∈ hs, ∀ t ∈ h.type?, Plain t)
    (hid : ∀ h ∈ hs, ∀ a ∈ h.name?, Lexeme.IsName a ∧ h.type? ≠ none) (hne : ∀ h ∈ hs, h.body ≠ [])
    (hb : ∀ h ∈ hs, ∀ s ∈ h.body, Recited bare chained s) (hm : m ≤ n)
    (hrest : nextKind rest ≠ .word .except_)
    (hlen : (outlined (handlerOutline bare chained hs) ++ rest).length ≤ m)
    (hturns : (outlined (handlerOutline bare chained hs) ++ rest).length ≤ turns) :
    Yields (List.map Handler.unplaced) (handlerLoop (.level n) (.level (.level n) m) turns)
      (hs.map Handler.unplaced) (outlined (handlerOutline bare chained hs) ++ rest) rest := by
  induction hs generalizing turns with
  | nil =>
    cases turns with
    | zero => exact .pure ⟨rfl, rfl⟩
    | succ turns => exact .other hrest (.pure ⟨rfl, rfl⟩)
  | cons h hs ih =>
    have hblock := blockOutline_ne_nil bare chained (hne h List.mem_cons_self) .if_
    have hform : outlined (handlerOutline bare chained (h :: hs)) ++ rest = .word .except_ ::
        (handlerForm bare h.type? h.name? ++ (blockLexemes (blockOutline bare chained h.body .if_) ++
          (outlined (handlerOutline bare chained hs) ++ rest))) := by
      rw [handlerOutline, outlined_clause hblock]
      simp
    rw [hform] at hlen hturns ⊢
    rw [List.length_cons] at hlen hturns
    obtain ⟨turns, rfl⟩ : ∃ k, turns = k + 1 := ⟨turns - 1, by omega⟩
    refine .same rfl (.pop (by simp) fun _ _ => ?_)
    refine (handlerHead_reads (ht h List.mem_cons_self) (hid h List.mem_cons_self) (by omega)).bind ?_
    rintro ⟨type, name⟩ hhead
    obtain ⟨htype, rfl⟩ := Prod.mk.inj hhead
    rw [List.length_append] at hlen hturns
    refine (suite_reads (hb h List.mem_cons_self) hm (by omega)).bind fun body hbody => ?_
    rw [List.length_append] at hlen hturns
    refine .spanFrom fun span => ?_
    exact (ih (fun h' hh' => ht h' (List.mem_cons_of_mem _ hh'))
      (fun h' hh' => hid h' (List.mem_cons_of_mem _ hh'))
      (fun h' hh' => hne h' (List.mem_cons_of_mem _ hh'))
      (fun h' hh' => hb h' (List.mem_cons_of_mem _ hh')) (by omega) (by omega)).bind
      fun handlers hhandlers => .pure ⟨by simp [Handler.unplaced, htype, hbody, hhandlers], rfl⟩

/-- A try statement is read from its keyword on. -/
theorem tryRule_reads {t : Span} {b o f : List Stmt} {hs : List (Handler Stmt)}
    (handled : hs ≠ [] ∨ f ≠ []) (hne : b ≠ []) (hb : ∀ s ∈ b, Recited bare chained s)
    (ht : ∀ h ∈ hs, ∀ t ∈ h.type?, Plain t)
    (hid : ∀ h ∈ hs, ∀ a ∈ h.name?, Lexeme.IsName a ∧ h.type? ≠ none) (hnes : ∀ h ∈ hs, h.body ≠ [])
    (hhs : ∀ h ∈ hs, ∀ s ∈ h.body, Recited bare chained s) (ho : ∀ s ∈ o, Recited bare chained s)
    (hf : ∀ s ∈ f, Recited bare chained s) (hm : m < n) (hrest : EndsClauses rest)
    (hlen : (outlined ((Stmt.tryExcept t b hs o f).outline bare chained w) ++ rest).length ≤ m + 1) :
    Yields Stmt.unplaced (tryRule (.level n) (.level (.level n) m)) (Stmt.tryExcept t b hs o f).unplaced
      (outlined ((Stmt.tryExcept t b hs o f).outline bare chained w) ++ rest) rest := by
  have hblock := blockOutline_ne_nil bare chained hne .if_
  have hform : outlined ((Stmt.tryExcept t b hs o f).outline bare chained w) ++ rest = .word .try_ ::
      (blockLexemes (blockOutline bare chained b .if_) ++
        (outlined (handlerOutline bare chained hs) ++
          (outlined (optionalClause .else_ (blockOutline bare chained o .if_)) ++
            (outlined (optionalClause .finally_ (blockOutline bare chained f .if_)) ++ rest)))) := by
    rw [Stmt.outline, outlined_clause hblock]
    simp
  rw [hform] at hlen ⊢
  rw [List.length_cons] at hlen
  have helse := optionalClause_next_ne (blockOutline bare chained f .if_) (w := .finally_)
    (k := .word .else_) (by decide) (hrest.ne (by simp))
  have hexcept := optionalClause_next_ne (blockOutline bare chained o .if_) (w := .else_)
    (k := .word .except_) (by decide) (optionalClause_next_ne (blockOutline bare chained f .if_)
      (w := .finally_) (by decide) (hrest.ne (by simp)))
  have hm' := Nat.le_of_lt hm
  refine .expect rfl (by simp) fun _ _ => (suite_reads hb hm' (by omega)).bind fun body hbody => ?_
  rw [List.length_append] at hlen
  refine .remaining ((handlerLoop_reads ht hid hnes hhs hm' hexcept (by omega) (Nat.le_refl _)).bind
    fun handlers hhandlers => ?_)
  rw [List.length_append] at hlen
  refine (optionalSuite_reads ho hm' helse (by omega)).bind fun orelse horelse => ?_
  rw [List.length_append] at hlen
  refine (optionalSuite_reads hf hm' (hrest.ne (by simp)) (by omega)).bind fun finalbody hfinal => ?_
  have hsome : ¬(handlers.isEmpty && finalbody.isEmpty) = true := by
    have hhandlers' : handlers = [] ↔ hs = [] := by
      rw [← List.map_eq_nil_iff (f := Handler.unplaced), hhandlers, List.map_eq_nil_iff]
    have hfinal' : finalbody = [] ↔ f = [] := by
      rw [← List.map_eq_nil_iff (f := Stmt.unplaced), hfinal, List.map_eq_nil_iff]
    simp only [Bool.and_eq_true, List.isEmpty_iff, hhandlers', hfinal', not_and_or]
    exact handled
  rw [if_neg hsome]
  exact .spanFrom fun span => .pure ⟨by simp [Stmt.unplaced, hbody, hhandlers, horelse, hfinal], rfl⟩

/-- Decorators are read up to the definition. -/
theorem decoratorLoop_reads {ds : List Expr} (hds : ∀ d ∈ ds, Plain d) (hrest : nextKind rest ≠ .mark .at)
    (hlen : (outlined (decoratorLines bare ds) ++ rest).length ≤ n)
    (hturns : (outlined (decoratorLines bare ds) ++ rest).length ≤ turns) :
    Yields (List.map Expr.unplaced) (decoratorLoop (.level n) turns) (ds.map Expr.unplaced)
      (outlined (decoratorLines bare ds) ++ rest) rest := by
  induction ds generalizing turns with
  | nil =>
    cases turns with
    | zero => exact .pure ⟨rfl, rfl⟩
    | succ turns => exact .other hrest (.pure ⟨rfl, rfl⟩)
  | cons d ds ih =>
    have hform : outlined (decoratorLines bare (d :: ds)) ++ rest = .mark .at :: (d.write bare 14 ++
        .layout .newline :: (outlined (decoratorLines bare ds) ++ rest)) := by
      simp [decoratorLines]
    rw [hform] at hlen hturns ⊢
    rw [List.length_cons] at hlen hturns
    obtain ⟨turns, rfl⟩ : ∃ k, turns = k + 1 := ⟨turns - 1, by omega⟩
    refine .same rfl (.pop (by simp) fun _ _ => ?_)
    refine ((hds d List.mem_cons_self).test (stops_cons (by decide)) (by omega)).bind fun a ha => ?_
    rw [List.length_append, List.length_cons] at hlen hturns
    refine .expect rfl (by simp) fun _ _ => ?_
    exact (ih (fun d' hd' => hds d' (List.mem_cons_of_mem _ hd')) (by omega) (by omega)).bind
      fun as has => .pure ⟨by simp [ha, has], rfl⟩

/-- The lexemes of a definition behind its decorators. -/
def defLexemes (f : String) (ps : Params Expr) (block : List Outline) : List Lexeme :=
  .word .def_ :: .name f :: .mark .parenOpen ::
    (paramLexemes ps ++ .mark .parenClose :: blockLexemes block)

/-- A definition is read behind its decorators. -/
theorem functionDef_reads (t : Span) (f : String) {ps : Params Expr} {b : List Stmt} {ds as : List Expr}
    (hps : ps.ArePlain) (hb : ∀ s ∈ b, Recited bare chained s) (hm : m < n)
    (hds : as.map Expr.unplaced = ds.map Expr.unplaced)
    (hlen : (defLexemes f ps (blockOutline bare chained b .if_) ++ rest).length ≤ m + 1) :
    Yields Stmt.unplaced (functionDef (.level n) (.level (.level n) m) start as)
      (Stmt.functionDef t f ps b ds).unplaced
      (defLexemes f ps (blockOutline bare chained b .if_) ++ rest) rest := by
  simp only [defLexemes, List.cons_append, List.append_assoc, List.length_cons] at hlen ⊢
  refine .expect rfl (by simp) fun _ _ => (nameOf_reads f).bind ?_
  rintro _ rfl
  refine .expect rfl (by simp) fun _ _ => (params_reads hps (.inr rfl) rfl).bind fun read hread => ?_
  rw [List.length_append, List.length_cons] at hlen
  refine .expect rfl (by simp) fun _ _ =>
    (suite_reads hb (Nat.le_of_lt hm) (by omega)).bind fun body hbody => ?_
  exact .spanFrom fun span => .pure ⟨by simp [Stmt.unplaced, hread, hbody, hds], rfl⟩

end

end Hoist.Surface
