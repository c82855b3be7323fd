import Hoist.Proofs.Surface.Trailers

/-!
# Operations

Unary and binary operations, connectives, chains of comparisons, conditionals and lambdas are read back.
The left operand of a binary operator has the looseness of the operator and the right one is tighter, so
a chain groups to the left; only a power has its sign on the right.
-/

namespace Hoist.Surface

open Grammar

section

variable {bare : Bool} {e l r x : Expr} {es : List Expr} {n p turns : Nat} {s : Span} {op : Operator}
  {ls rest : List Lexeme}

theorem Operator.mem_levelOperators (hbinary : op.isBinary = true) (hpow : op ≠ .pow) :
    op ∈ levelOperators op.looseness ∧ 4 ≤ op.looseness ∧ op.looseness ≤ 9 ∧
      op.left = op.looseness ∧ op.right = op.looseness - 1 := by
  cases op <;> first | exact absurd rfl hpow | exact absurd hbinary (by decide) | decide

/-- The mark of a binary operator. -/
theorem Operator.exists_mark (hbinary : op.isBinary = true) (hpow : op ≠ .pow) :
    ∃ m, op.lexemes = [.mark m] ∧ binaryOperator? (.mark m) = some op := by
  cases op <;> first
    | exact absurd rfl hpow
    | exact absurd hbinary (by decide)
    | exact ⟨_, rfl, rfl⟩

theorem Readable.binary (h : Plain (.binary s op l r)) (hbinary : op.isBinary = true) (hpow : op ≠ .pow)
    (hl : Readable bare l) (hr : Readable bare r) : Readable bare (.binary s op l r) := by
  obtain ⟨hmem, hge, hle, hleft, hright⟩ := Operator.mem_levelOperators hbinary hpow
  obtain ⟨m, hm, hop⟩ := Operator.exists_mark hbinary hpow
  have hloop : IsLoop op.looseness := .inr ⟨hge, hle⟩
  refine .of_leads (h.fronted 14) hloop fun n rest hstops hlen post hpost => ?_
  have hform : (Expr.binary s op l r).body bare 14 ++ rest = l.write bare op.looseness ++
      .mark m :: (r.write bare (op.looseness - 1) ++ rest) := by
    simp [Expr.body, Expr.write, hm, hleft, hright]
  have hreach := binaryOperator_reach hop
  rw [hform] at hlen ⊢
  refine hl.leads n op.looseness _ hloop (by rw [Stops, nextKind_cons, Lexeme.kind_mark, hreach]; omega)
    hlen post fun a turns ha hturns => ?_
  rw [List.length_append, List.length_cons] at hlen
  rw [List.length_cons, List.length_append] at hturns
  obtain ⟨turns, rfl⟩ : ∃ k, turns = k + 1 := ⟨turns - 1, by omega⟩
  have hfold : loopAt (level n) op.looseness =
      leftFold (levelOperators op.looseness) (ruleAt (level n) (op.looseness - 1)) := if_neg (by omega)
  rw [hfold]
  refine .peek ?_
  rw [nextKind_cons, Lexeme.kind_mark, hop]
  dsimp only
  rw [if_neg (by simpa using hmem)]
  refine .pop (by simp) fun t _ => ?_
  refine (hr.reads n (op.looseness - 1) rest (by omega) hstops (by omega)).bind fun b hb => ?_
  rw [← hfold]
  exact hpost _ turns (by simp [Expr.unplaced, ha, hb]) (by omega)

/-- Signs stand before their operands, so no token goes on with them. -/
theorem stops_sign (h : Stops 2 ls) : Stops 3 ls := by
  unfold Stops reach at *
  split at h <;> simp_all

theorem Readable.pow (h : Plain (.binary s .pow l r)) (hl : Readable bare l) (hr : Readable bare r) :
    Readable bare (.binary s .pow l r) := by
  have hloose : (Expr.binary s .pow l r).looseness = 2 := rfl
  refine .of_own (h.fronted 14) (by omega) (fun n rest hstops hlen => ?_) fun hloop => ?_
  · have hform : (Expr.binary s .pow l r).body bare 14 ++ rest = l.write bare 1 ++
        .mark .doubleStar :: (r.write bare 3 ++ rest) := by
      simp [Expr.body, Expr.write, Operator.left, Operator.right, Operator.lexemes]
    rw [hform] at hlen ⊢
    refine (hl.reads n 1 _ (by decide) (stops_cons (by decide)) hlen).bind fun a ha => ?_
    rw [List.length_append, List.length_cons] at hlen
    have hpos := List.length_pos_iff.2 (hl.write_ne_nil (p := 1) (by decide))
    refine .same rfl (.pop (by simp) fun t _ => ?_)
    exact (hr.factor (stops_sign hstops) (by omega)).bind
      fun b hb => .pure ⟨by simp [Expr.unplaced, ha, hb], rfl⟩
  · unfold IsLoop at hloop
    omega

theorem Readable.sign {m : Mark} (h : Plain (.unary s op x)) (hop : op.looseness = 3)
    (hm : op.lexemes = [.mark m]) (hread : unaryOperator? (.mark m) = some op) (hx : Readable bare x) :
    Readable bare (.unary s op x) := by
  have hloose : (Expr.unary s op x).looseness = 3 := hop
  refine .of_own (h.fronted 14) (by omega) (fun n rest hstops hlen => ?_) fun hloop => ?_
  · have hform : (Expr.unary s op x).body bare 14 ++ rest = .mark m :: (x.write bare 3 ++ rest) := by
      simp [Expr.body, Expr.write, hm, hop]
    rw [hform] at hlen ⊢
    rw [hloose] at hstops ⊢
    refine .peek ?_
    rw [nextKind_cons, Lexeme.kind_mark, hread]
    exact .pop (by simp) fun t _ => (hx.factor hstops (Nat.le_of_succ_le_succ hlen)).bind
      fun a ha => .pure ⟨by simp [Expr.unplaced, ha], rfl⟩
  · unfold IsLoop at hloop
    omega

theorem Readable.negation (h : Plain (.unary s .not x)) (hx : Readable bare x) :
    Readable bare (.unary s .not x) := by
  have hloose : (Expr.unary s .not x).looseness = 11 := rfl
  refine .of_own (h.fronted 14) (by omega) (fun n rest hstops hlen => ?_) fun hloop => ?_
  · have hform : (Expr.unary s .not x).body bare 14 ++ rest =
        .word .not_ :: (x.write bare 11 ++ rest) := rfl
    rw [hform] at hlen ⊢
    rw [hloose] at hstops ⊢
    exact .same rfl (.pop (by simp) fun t _ => (hx.notTest hstops (Nat.le_of_succ_le_succ hlen)).bind
      fun a ha => .pure ⟨by simp [Expr.unplaced, ha], rfl⟩)
  · unfold IsLoop at hloop
    omega

theorem Readable.unary (h : Plain (.unary s op x)) (hop : op.isUnary = true) (hx : Readable bare x) :
    Readable bare (.unary s op x) := by
  cases op with
  | plus | minus | invert => exact .sign h rfl rfl rfl hx
  | not => exact .negation h hx
  | _ => cases hop

/-- What stands behind the first operand of a connective. -/
theorem joined_cons (bare : Bool) (op : Operator) (e : Expr) (es : List Expr) :
    joined bare op (e :: es) = e.write bare (op.looseness - 1) ++
      (es.map (Expr.write bare (op.looseness - 1))).flatMap (op.lexemes ++ ·) := by
  induction es generalizing e with
  | nil => simp [joined, Expr.write]
  | cons e' es ih => rw [joined, ih e']; simp [Expr.write]

theorem connectiveLoop_reads {w : Word} {operand : Reader Expr} (hw : op.lexemes = [.word w])
    (hoperand : ∀ e ∈ es, ∀ rest, Stops p rest → (e.write bare p ++ rest).length ≤ n →
      Yields Expr.unplaced operand e.unplaced (e.write bare p ++ rest) rest)
    (hreach : p < reach (.word w)) (hstops : Stops (reach (.word w)) rest)
    (hlen : ((es.map (Expr.write bare p)).flatMap (op.lexemes ++ ·) ++ rest).length ≤ n)
    (hturns : ((es.map (Expr.write bare p)).flatMap (op.lexemes ++ ·) ++ rest).length ≤ turns) :
    Yields (List.map Expr.unplaced) (connectiveLoop w operand turns) (es.map Expr.unplaced)
      ((es.map (Expr.write bare p)).flatMap (op.lexemes ++ ·) ++ rest) rest := by
  induction es generalizing turns with
  | nil =>
    cases turns with
    | zero => exact .pure ⟨rfl, rfl⟩
    | succ turns => exact .other (hstops.ne (Nat.le_refl _)) (.pure ⟨rfl, rfl⟩)
  | cons e es ih =>
    obtain ⟨tail, htail⟩ : ∃ tail, (es.map (Expr.write bare p)).flatMap (op.lexemes ++ ·) ++ rest = tail :=
      ⟨_, rfl⟩
    have hform : ((e :: es).map (Expr.write bare p)).flatMap (op.lexemes ++ ·) ++ rest =
        .word w :: (e.write bare p ++ tail) := by
      simp [← htail, hw]
    rw [hform] at hlen hturns ⊢
    rw [htail] at ih
    rw [List.length_cons] at hlen hturns
    obtain ⟨turns, rfl⟩ : ∃ k, turns = k + 1 := ⟨turns - 1, by omega⟩
    have hnext : Stops p tail := by
      rw [← htail]
      cases es with
      | nil => exact hstops.mono (Nat.le_of_lt hreach)
      | cons e' es =>
        rw [List.map_cons, List.flatMap_cons, hw]
        exact stops_cons hreach
    refine .same rfl (.pop (by simp) fun t _ => ?_)
    refine (hoperand e List.mem_cons_self tail hnext (by omega)).bind fun a ha => ?_
    rw [List.length_append] at hlen hturns
    exact (ih (fun e' he' => hoperand e' (List.mem_cons_of_mem _ he')) (by omega) (by omega)).bind
      fun as has => .pure ⟨by simp [ha, has], rfl⟩

/-- Several operands of a connective are read as one operation. -/
theorem connective_reads {w : Word} (hw : op.lexemes = [.word w]) (hreach : p < reach (.word w))
    (hp : p ≤ 14) (hes : ∀ e ∈ es, Readable bare e) (hseveral : 2 ≤ es.length)
    (hloose : op.looseness - 1 = p) (hstops : Stops (reach (.word w)) rest)
    (hlen : (joined bare op es ++ rest).length ≤ n + 1) :
    Yields Expr.unplaced (connective w op (ruleAt (level n) p))
      (Expr.boolean default op (es.map Expr.unplaced)) (joined bare op es ++ rest) rest := by
  obtain _ | ⟨e, _ | ⟨e', es⟩⟩ := es
  · cases hseveral
  · simp at hseveral
  obtain ⟨tail, htail⟩ :
      ∃ tail, ((e' :: es).map (Expr.write bare p)).flatMap (op.lexemes ++ ·) ++ rest = tail := ⟨_, rfl⟩
  have hform : joined bare op (e :: e' :: es) ++ rest = e.write bare p ++ tail := by
    rw [joined_cons, List.append_assoc, hloose, htail]
  have hnext : Stops p tail := by
    rw [← htail, List.map_cons, List.flatMap_cons, hw]
    exact stops_cons hreach
  rw [hform] at hlen ⊢
  have hoperands : ∀ e ∈ e' :: es, ∀ rest, Stops p rest → (e.write bare p ++ rest).length ≤ n + 1 →
      Yields Expr.unplaced (ruleAt (level n) p) e.unplaced (e.write bare p ++ rest) rest :=
    fun e he rest hstops hlen => (hes e (List.mem_cons_of_mem _ he)).reads n p rest hp hstops hlen
  have hloop := connectiveLoop_reads hw hoperands hreach hstops
    (by rw [htail]; rw [List.length_append] at hlen; omega) (Nat.le_refl _)
  rw [htail] at hloop
  refine ((hes e List.mem_cons_self).reads n p tail hp hnext hlen).bind fun a ha => .remaining ?_
  refine hloop.bind fun as has => ?_
  cases hlast : as.getLast? with
  | none =>
    rw [List.getLast?_eq_none_iff.1 hlast] at has
    cases has
  | some last => exact .pure ⟨by simpa [Expr.unplaced, ha] using has, rfl⟩

theorem Readable.boolean (h : Plain (.boolean s op es)) (hop : op.isConnective = true)
    (hseveral : 2 ≤ es.length) (hes : ∀ e ∈ es, Readable bare e) : Readable bare (.boolean s op es) := by
  have hloose : (Expr.boolean s op es).looseness = op.looseness := rfl
  refine .of_own (h.fronted 14) ?_ (fun n rest hstops hlen => ?_) fun hloop => ?_
  · rw [hloose]
    cases op <;> decide
  · rw [Expr.unplaced, exprsUnplaced_eq]
    cases op with
    | and => exact connective_reads rfl (by decide) (by decide) hes hseveral rfl hstops hlen
    | or => exact connective_reads rfl (by decide) (by decide) hes hseveral rfl hstops hlen
    | _ => cases hop
  · rw [hloose] at hloop
    unfold IsLoop at hloop
    cases op <;> first | exact absurd hop (by decide) | exact absurd hloop (by decide)

/-- The lexemes of a comparison are seen as one before an operand, which does not start with `not`. -/
theorem Operator.comparison_lexemes (hop : op.isComparison = true) (x : Lexeme) (tail : List Lexeme)
    (hx : x.kind ≠ .word .not_) :
    comparison? (.ofTokens (placed 0 (op.lexemes ++ x :: tail))) = some (op, op.lexemes.length) := by
  have his : comparison? (.ofTokens (placed 0 (.word .is_ :: x :: tail))) = some (.is, 1) := by
    have hsecond : ((Cursor.ofTokens (placed 0 (.word .is_ :: x :: tail))).secondKind ==
        .word .not_) = false := beq_eq_false_iff_ne.2 hx
    show (if _ then _ else _) = _
    rw [hsecond]
    rfl
  cases op <;> first | rfl | exact his | exact absurd hop (by decide)

theorem Operator.lexemes_of_comparison (hop : op.isComparison = true) :
    (∃ y, op.lexemes = [y] ∧ y.kind ≠ .endOfInput) ∨
      ∃ y z, op.lexemes = [y, z] ∧ y.kind ≠ .endOfInput ∧ z.kind ≠ .endOfInput := by
  cases op <;> first
    | exact absurd hop (by decide)
    | exact .inl ⟨_, rfl, by decide⟩
    | exact .inr ⟨_, _, rfl, by decide, by decide⟩

/-- Comparisons end the operand before them. -/
theorem stops_comparisons {es : List (Operator × Expr)} (hops : ∀ p ∈ es, p.1.isComparison = true)
    (hstops : Stops 9 rest) : Stops 9 (comparisonForms bare es ++ rest) := by
  cases es with
  | nil => exact hstops
  | cons p es =>
    obtain ⟨op, e⟩ := p
    have hop : op.isComparison = true := hops _ List.mem_cons_self
    cases op <;> first | exact absurd hop (by decide) | exact stops_cons (by decide)

/-- The form of the values of a chain of comparisons. -/
theorem comparisonForms_cons (bare : Bool) (op : Operator) (e : Expr) (es : List (Operator × Expr)) :
    comparisonForms bare ((op, e) :: es) = op.lexemes ++ (e.write bare 9 ++ comparisonForms bare es) :=
  rfl

theorem comparisonLoop_reads {es : List (Operator × Expr)} (hops : ∀ p ∈ es, p.1.isComparison = true)
    (hes : ∀ p ∈ es, Readable bare p.2) (hstops : Stops 10 rest)
    (hlen : (comparisonForms bare es ++ rest).length ≤ n)
    (hturns : (comparisonForms bare es ++ rest).length ≤ turns) :
    Yields (List.map (Prod.map id Expr.unplaced)) (comparisonLoop (level n) turns)
      (es.map (Prod.map id Expr.unplaced)) (comparisonForms bare es ++ rest) rest := by
  induction es generalizing turns with
  | nil => exact (comparisonLoop_stops hstops).mono fun as ls ⟨has, hls⟩ => ⟨has ▸ rfl, hls⟩
  | cons q es ih =>
    obtain ⟨op, e⟩ := q
    have hop := hops _ List.mem_cons_self
    have he : Readable bare e := hes _ List.mem_cons_self
    obtain ⟨tail, htail⟩ : ∃ tail, comparisonForms bare es ++ rest = tail := ⟨_, rfl⟩
    obtain ⟨x, ls, hx⟩ := List.exists_cons_of_ne_nil (he.write_ne_nil (p := 9) (by decide))
    have hnot : x.kind ≠ .word .not_ := by
      have hentry := (he.fronted 9).entry
      rw [hx] at hentry
      exact ne_of_entry hentry (by decide)
    have hcomparison := Operator.comparison_lexemes hop x (ls ++ tail) hnot
    rw [comparisonForms_cons, List.append_assoc, List.append_assoc, htail] at hlen hturns ⊢
    rw [htail] at ih
    rw [List.length_append] at hlen hturns
    have hwidth : 0 < op.lexemes.length := by cases op <;> decide
    obtain ⟨turns, rfl⟩ : ∃ k, turns = k + 1 := ⟨turns - 1, by omega⟩
    have hoperand : Yields (List.map (Prod.map id Expr.unplaced))
        (do let e ← (level n).bitOr; return (op, e) :: (← comparisonLoop (level n) turns))
        (((op, e) :: es).map (Prod.map id Expr.unplaced)) (e.write bare 9 ++ tail) rest := by
      have htail' : Stops 9 tail :=
        htail ▸ stops_comparisons (fun p hp => hops p (List.mem_cons_of_mem _ hp)) (hstops.mono (by decide))
      refine (he.bitOr htail' (by omega)).bind fun a ha => ?_
      rw [List.length_append] at hlen hturns
      exact (ih (fun p hp => hops p (List.mem_cons_of_mem _ hp))
        (fun p hp => hes p (List.mem_cons_of_mem _ hp)) (by omega) (by omega)).bind
        fun as has => .pure ⟨by simp [ha, has], rfl⟩
    refine .get fun c hc => ?_
    rw [Cursor.comparison_eq hc, hx, List.cons_append, hcomparison]
    rw [hx, List.cons_append] at hoperand
    dsimp only
    rcases Operator.lexemes_of_comparison hop with ⟨y, hl, hy⟩ | ⟨y, z, hl, hy, hz⟩
    · rw [hl, if_neg (by simp)]
      exact .pop hy fun _ _ => hoperand
    · rw [hl, if_pos (by rfl)]
      exact .pop hy fun _ _ => .pop hz fun _ _ => hoperand

/-- A chain of comparisons is read as one operation. -/
theorem Readable.compare {es : List (Operator × Expr)} (h : Plain (.compare s l es)) (hne : es ≠ [])
    (hops : ∀ p ∈ es, p.1.isComparison = true) (hl : Readable bare l)
    (hes : ∀ p ∈ es, Readable bare p.2) : Readable bare (.compare s l es) := by
  have hloose : (Expr.compare s l es).looseness = 10 := rfl
  refine .of_own (h.fronted 14) (by omega) (fun n rest hstops hlen => ?_) fun hloop => ?_
  · have hform : (Expr.compare s l es).body bare 14 ++ rest =
        l.write bare 9 ++ (comparisonForms bare es ++ rest) := by
      simp [Expr.body, Expr.write]
    rw [hform] at hlen ⊢
    refine (hl.reads n 9 _ (by decide) (stops_comparisons hops (hstops.mono (by omega))) hlen).bind
      fun a ha => .remaining ?_
    have hpos := List.length_pos_iff.2 (hl.write_ne_nil (p := 9) (by decide))
    rw [List.length_append] at hlen
    refine (comparisonLoop_reads hops hes (by rwa [hloose] at hstops) (by omega) (Nat.le_refl _)).bind
      fun as has => ?_
    cases hlast : as.getLast? with
    | none =>
      rw [List.getLast?_eq_none_iff.1 hlast] at has
      exact absurd (List.map_eq_nil_iff.1 has.symm) hne
    | some last => exact .pure ⟨by simp [Expr.unplaced, ha, has], rfl⟩
  · unfold IsLoop at hloop
    omega

theorem Readable.conditional {t b o : Expr} (h : Plain (.conditional s t b o)) (ht : Readable bare t)
    (hb : Readable bare b) (ho : Readable bare o) : Readable bare (.conditional s t b o) := by
  have hloose : (Expr.conditional s t b o).looseness = 14 := rfl
  refine .of_own (h.fronted 14) (by omega) (fun n rest hstops hlen => ?_) fun hloop => ?_
  · have hform : (Expr.conditional s t b o).body bare 14 ++ rest = b.write bare 13 ++ .word .if_ ::
        (t.write bare 13 ++ .word .else_ :: (o.write bare 14 ++ rest)) := by
      simp [Expr.body, Expr.write]
    rw [hform] at hlen ⊢
    have hpos := List.length_pos_iff.2 (hb.write_ne_nil (p := 13) (by decide))
    refine .missed (hb.next_ne (by decide) (by decide)) ?_
    refine (hb.reads n 13 _ (by decide) (stops_cons (by decide)) hlen).bind fun a ha => ?_
    simp only [List.length_append, List.length_cons] at hlen
    refine .same rfl (.pop (by simp) fun t' _ => ?_)
    refine (ht.orTest (stops_cons (by decide)) ?_).bind fun c hc => .expect rfl (by simp) fun t' _ => ?_
    · simp only [List.length_append, List.length_cons]
      omega
    refine (ho.test hstops ?_).bind fun d hd => .pure ⟨by simp [Expr.unplaced, ha, hc, hd], rfl⟩
    rw [List.length_append]
    omega
  · unfold IsLoop at hloop
    omega

/-- A parameter without a default value is added to the positional ones. -/
theorem oneParam_reads {g : Grammar} {read : Params Expr} {id : String}
    (hrest : nextKind rest ≠ .mark .equal) :
    Reads (oneParam g read false) (.name id :: rest) fun a ls =>
      (∃ q : Param, q.name = id ∧ a = ({ read with positional := read.positional ++ [q] }, false)) ∧
        ls = rest := by
  refine .peek ?_
  rw [nextKind_cons, Lexeme.kind_name]
  dsimp only
  rw [param, bind_assoc]
  refine .expect rfl (by simp) fun t ht => ?_
  have htext : t.text = id.toList := Token.text_eq ht rfl
  rw [pure_bind, defaultValue?, bind_assoc]
  refine .peek ?_
  rw [if_pos (by simpa using hrest), pure_bind]
  exact .pure ⟨⟨⟨⟨t.start, t.stop⟩, String.ofList t.text⟩, by simp [htext], by simp⟩, rfl⟩

/-- Positional parameters are read up to a closing token, which stays. -/
theorem paramLoop_reads {k : Kind} {ps : List Param} {g : Grammar} (read : Params Expr)
    (hk : k = .mark .colon ∨ k = .mark .parenClose) (hrest : nextKind rest = k)
    (hread : read.kwarg? = none) (hturns : (paramLexemes { positional := ps } ++ rest).length ≤ turns) :
    Yields paramsUnplaced (paramLoop g k turns read false)
      (paramsUnplaced { read with positional := read.positional ++ ps })
      (paramLexemes { positional := ps } ++ rest) rest := by
  have hname : Kind.identifier ≠ k := by rcases hk with rfl | rfl <;> simp
  have hcomma : Kind.mark .comma ≠ k := by rcases hk with rfl | rfl <;> simp
  have hequal : k ≠ .mark .equal := by rcases hk with rfl | rfl <;> simp
  induction ps generalizing read turns with
  | nil =>
    rw [List.append_nil]
    cases turns with
    | zero => exact .pure ⟨rfl, rfl⟩
    | succ turns => exact .found hrest (.pure ⟨rfl, rfl⟩)
  | cons p ps ih =>
    cases ps with
    | nil =>
      have hform : paramLexemes { positional := [p] } ++ rest = .name p.name :: rest := rfl
      rw [hform, List.length_cons] at hturns
      rw [hform]
      obtain ⟨turns, rfl⟩ : ∃ k, turns = k + 1 := ⟨turns - 1, by omega⟩
      refine .missed hname ((oneParam_reads (hrest ▸ hequal)).bind ?_)
      rintro _ _ ⟨⟨q, hq, rfl⟩, rfl⟩
      exact .found hrest (.pure ⟨by simp [paramsUnplaced, Param.unplaced, hq], rfl⟩)
    | cons p' ps =>
      have hform : paramLexemes { positional := p :: p' :: ps } ++ rest =
        .name p.name :: .mark .comma :: (paramLexemes { positional := p' :: ps } ++ rest) := rfl
      rw [hform, List.length_cons, List.length_cons] at hturns
      rw [hform]
      obtain ⟨turns, rfl⟩ : ∃ k, turns = k + 1 := ⟨turns - 1, by omega⟩
      refine .missed hname ((oneParam_reads (by simp)).bind ?_)
      rintro _ _ ⟨⟨q, hq, rfl⟩, rfl⟩
      refine .missed hcomma (.expect rfl (by simp) fun t _ => ?_)
      rw [if_neg (by simp [hread])]
      refine (ih { read with positional := read.positional ++ [q] } hread (by omega)).mono
        fun a ls ⟨ha, hls⟩ => ⟨?_, hls⟩
      rw [ha]
      simp [paramsUnplaced, Param.unplaced, hq]

/-- Positional parameters are read as they are written. -/
theorem params_reads {k : Kind} {ps : Params Expr} {g : Grammar} (hps : ps.ArePlain)
    (hk : k = .mark .colon ∨ k = .mark .parenClose) (hrest : nextKind rest = k) :
    Yields paramsUnplaced (params g k) (paramsUnplaced ps) (paramLexemes ps ++ rest) rest := by
  have hloop : Yields paramsUnplaced (paramLoop g k ((paramLexemes ps ++ rest).length + 1) {} false)
      (paramsUnplaced ps) (paramLexemes ps ++ rest) rest := by
    have hread := paramLoop_reads (g := g) {} hk hrest rfl
      (Nat.le_succ (paramLexemes { positional := ps.positional } ++ rest).length)
    rw [List.nil_append, ← hps.1] at hread
    exact hread
  exact .remaining hloop

theorem Readable.lambda {ps : Params Expr} {b : Expr} (h : Plain (.lambda s ps b)) (hps : ps.ArePlain)
    (hb : Readable bare b) : Readable bare (.lambda s ps b) := by
  have hloose : (Expr.lambda s ps b).looseness = 14 := rfl
  refine .of_own (h.fronted 14) (by omega) (fun n rest hstops hlen => ?_) fun hloop => ?_
  · have hform : (Expr.lambda s ps b).body bare 14 ++ rest = .word .lambda_ ::
        (paramLexemes ps ++ .mark .colon :: (b.write bare 14 ++ rest)) := by
      simp [Expr.body, Expr.write]
    rw [hform] at hlen ⊢
    rw [List.length_cons, List.length_append, List.length_cons] at hlen
    refine .found rfl (.pop (by simp) fun t _ => ?_)
    refine (params_reads hps (.inl rfl) rfl).bind fun read hread => .expect rfl (by simp) fun t _ => ?_
    exact (hb.test hstops (by omega)).bind fun a ha => .pure ⟨by simp [Expr.unplaced, ha, hread], rfl⟩
  · unfold IsLoop at hloop
    omega

end

end Hoist.Surface
