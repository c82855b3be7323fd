import Hoist.Proofs.Surface.Displays

/-!
# Calls, subscripts and attributes

What is called or subscripted comes first and may itself be a call or a subscript, so these are read
back by the loop that goes on with what it has read. Arguments are told apart by their first tokens,
and a subscript with a slice among its parts from one with a tuple.
-/

namespace Hoist.Surface

open Grammar

section

variable {bare : Bool} {e v : Expr} {es : List Expr} {n turns : Nat} {s : Span} {rest : List Lexeme}

/-- An expression that is read by a loop is read back in every position. -/
theorem Readable.of_leads (hfront : Fronted e.looseness (e.body bare 14)) (hloop : IsLoop e.looseness)
    (hleads : ∀ n rest, Stops (e.looseness - 1) rest → (e.body bare 14 ++ rest).length ≤ n + 1 →
      Leads (.level n) e.looseness e (e.body bare 14 ++ rest) rest) : Readable bare e :=
  .of_own hfront (by unfold IsLoop at hloop; omega)
    (fun n rest hstops hlen => yields_of_leads hloop
      (hleads n rest (hstops.mono (Nat.sub_le _ _)) hlen) hstops) fun _ => hleads

theorem Readable.attr {a : String} (h : Plain (.attribute s v a)) (hv : Readable bare v) :
    Readable bare (.attribute s v a) := by
  refine .of_leads (h.fronted 14) (.inl rfl) fun n rest hstops hlen post hloop => ?_
  have hform : (Expr.attribute s v a).body bare 14 ++ rest =
      v.write bare 1 ++ .mark .dot :: .name a :: rest := by
    simp [Expr.body, Expr.write]
  rw [hform] at hlen ⊢
  refine hv.leads n 1 _ (.inl rfl) (stops_cons (by decide)) hlen post fun b turns hb hturns => ?_
  rw [List.length_cons, List.length_cons] at hturns
  obtain ⟨turns, rfl⟩ : ∃ k, turns = k + 1 := ⟨turns - 1, by omega⟩
  refine .peek (.pop (by simp) fun t _ => .expect rfl (by simp) fun t ht => hloop _ turns ?_ (by omega))
  have htext : t.text = a.toList := Token.text_eq ht rfl
  simp [Expr.unplaced, hb, htext]

/-- A subscript is read when what stands between its brackets is. -/
theorem Readable.subscript_of {i : Expr} (h : Plain (.subscript s v i)) (hv : Readable bare v)
    (hi : ∀ n rest, (i.writeList bare 14 ++ .mark .bracketClose :: rest).length ≤ n →
      Yields Expr.unplaced (subscripts (level n)) i.unplaced
        (i.writeList bare 14 ++ .mark .bracketClose :: rest) (.mark .bracketClose :: rest)) :
    Readable bare (.subscript s v i) := by
  refine .of_leads (h.fronted 14) (.inl rfl) fun n rest hstops hlen post hloop => ?_
  have hform : (Expr.subscript s v i).body bare 14 ++ rest = v.write bare 1 ++
      .mark .bracketOpen :: (i.writeList bare 14 ++ .mark .bracketClose :: rest) := by
    simp [Expr.body, Expr.write, Expr.writeList]
  rw [hform] at hlen ⊢
  refine hv.leads n 1 _ (.inl rfl) (stops_cons (by decide)) hlen post fun b turns hb hturns => ?_
  simp only [List.length_append, List.length_cons] at hlen hturns
  obtain ⟨turns, rfl⟩ : ∃ k, turns = k + 1 := ⟨turns - 1, by omega⟩
  have hv := List.length_pos_iff.2 (hv.write_ne_nil (p := 1) (by decide))
  refine .peek (.pop (by simp) fun t _ => (hi n rest ?_).bind fun a ha => ?_)
  · simp only [List.length_append, List.length_cons]
    omega
  · exact .expect rfl (by simp) fun t _ => hloop _ turns (by simp [Expr.unplaced, hb, ha]) (by omega)

/-- Arguments of a call without places. -/
def argumentUnplaced : Expr ⊕ Keyword Expr → Expr ⊕ Keyword Expr :=
  Sum.map Expr.unplaced Keyword.unplaced

/-- What does not look like the name of a keyword argument is a positional one. -/
theorem positional_of {b : Expr} {ls : List Lexeme}
    (hstar : nextKind (ls ++ rest) ≠ .mark .doubleStar)
    (hkeyed : nextKind (ls ++ rest) = .identifier → secondKind (ls ++ rest) ≠ .mark .equal)
    (h : Yields Expr.unplaced (testOrStarWith (level n).test (level n)) b (ls ++ rest) rest) :
    Yields argumentUnplaced (oneArgument (level n)) (.inl b) (ls ++ rest) rest := by
  refine .missed hstar (.peek (.peekSecond ?_))
  rw [if_neg]
  · exact h.bind fun a ha => .pure ⟨by simp [argumentUnplaced, ha], rfl⟩
  · simp only [Bool.and_eq_true, beq_iff_eq]
    exact fun ⟨hname, hequal⟩ => hkeyed hname hequal

theorem Readable.positional (h : Readable bare e) :
    Item argumentUnplaced (oneArgument (level n)) EndsItem n (.inl e.unplaced) (e.write bare 14) where
  starts := startsItem_of (h.starts (by decide))
  reads rest hends hlen := by
    have hitem := h.item (n := n) fun _ => EndsItem.stops
    exact positional_of (h.next_ne (by decide) (by decide)) ((h.fronted 14).unkeyed rest hends.not_equal)
      (hitem.reads rest hends hlen)

theorem Readable.starred (h : Readable bare v) :
    Item argumentUnplaced (oneArgument (level n)) EndsItem n (.inl (Expr.starred s v).unplaced)
      ((Expr.starred s v).write bare 14) where
  starts := rfl
  reads rest hends hlen := by
    have hform : (Expr.starred s v).write bare 14 = .mark .star :: v.write bare 9 := rfl
    rw [hform] at hlen ⊢
    refine positional_of (by simp) (by simp) ?_
    rw [List.cons_append] at hlen ⊢
    refine .same rfl (.pop (by simp) fun t _ => ?_)
    exact (h.bitOr (hends.stops.mono (by decide)) (Nat.le_of_succ_le hlen)).bind
      fun a ha => .pure ⟨by simp [Expr.unplaced, ha], rfl⟩

theorem Readable.keyed {k : Keyword Expr} (h : Readable bare k.value) :
    Item argumentUnplaced (oneArgument (level n)) EndsItem n (.inr k.unplaced) (k.write bare) where
  starts := by
    unfold Keyword.write
    cases k.name? <;> rfl
  reads rest hends hlen := by
    obtain ⟨s, _ | id, v⟩ := k
    · have hform : (⟨s, none, v⟩ : Keyword Expr).write bare ++ rest =
          .mark .doubleStar :: (v.write bare 14 ++ rest) := rfl
      rw [hform] at hlen ⊢
      refine .found rfl (.pop (by simp) fun t _ => ?_)
      exact (h.test hends.stops (Nat.le_of_succ_le hlen)).bind
        fun a ha => .pure ⟨by simp [argumentUnplaced, Keyword.unplaced, ha], rfl⟩
    · have hform : (⟨s, some id, v⟩ : Keyword Expr).write bare ++ rest =
          .name id :: .mark .equal :: (v.write bare 14 ++ rest) := rfl
      rw [hform] at hlen ⊢
      rw [List.length_cons, List.length_cons] at hlen
      refine .missed (by simp) (.peek (.peekSecond ?_))
      rw [if_pos (by simp)]
      refine .pop (by simp) fun t ht => .pop (by simp) fun t' _ => ?_
      have htext : t.text = id.toList := Token.text_eq ht rfl
      exact (h.test hends.stops (show (v.write bare 14 ++ rest).length ≤ n by omega)).bind
        fun a ha => .pure ⟨by simp [argumentUnplaced, Keyword.unplaced, ha, htext], rfl⟩

theorem positionals_unplaced (as : List (Expr ⊕ Keyword Expr)) :
    (positionals as).map Expr.unplaced = positionals (as.map argumentUnplaced) := by
  induction as with
  | nil => rfl
  | cons a as ih => cases a <;> simpa [positionals, argumentUnplaced] using ih

theorem keywords_unplaced (as : List (Expr ⊕ Keyword Expr)) :
    (keywords as).map Keyword.unplaced = keywords (as.map argumentUnplaced) := by
  induction as with
  | nil => rfl
  | cons a as ih => cases a <;> simpa [keywords, argumentUnplaced] using ih

theorem positionals_append (es : List Expr) (ks : List (Keyword Expr)) :
    positionals (es.map .inl ++ ks.map .inr) = es ∧ keywords (es.map .inl ++ ks.map .inr) = ks := by
  constructor
  · induction es with
    | nil => induction ks <;> simp_all [positionals]
    | cons e es ih => simp [positionals]
  · induction es with
    | nil => induction ks <;> simp_all [keywords]
    | cons e es ih => simp [keywords]

/-- A positional argument, starred or not, is an item when it is readable without its star. -/
theorem Readable.argument (h : Readable bare e.unstarred) :
    Item argumentUnplaced (oneArgument (level n)) EndsItem n (.inl e.unplaced) (e.write bare 14) := by
  cases e with
  | starred s v => exact Readable.starred h
  | _ => exact Readable.positional h

theorem Readable.arguments {ks : List (Keyword Expr)} (hes : ∀ e ∈ es, Readable bare e.unstarred)
    (hks : ∀ k ∈ ks, Readable bare k.value) :
    List.Forall₂ (Item argumentUnplaced (oneArgument (level n)) EndsItem n)
      ((es.map Expr.unplaced).map .inl ++ (ks.map Keyword.unplaced).map .inr)
      (es.map (Expr.write bare 14) ++ ks.map (Keyword.write bare)) := by
  induction es with
  | cons e es ih =>
    exact .cons (hes e List.mem_cons_self).argument (ih fun e' he' => hes e' (List.mem_cons_of_mem _ he'))
  | nil =>
    induction ks with
    | nil => exact .nil
    | cons k ks ih =>
      exact .cons (hks k List.mem_cons_self).keyed (ih fun k' hk' => hks k' (List.mem_cons_of_mem _ hk'))

theorem Readable.call {ks : List (Keyword Expr)} (h : Plain (.call s v es ks)) (hv : Readable bare v)
    (hes : ∀ e ∈ es, Readable bare e.unstarred) (hks : ∀ k ∈ ks, Readable bare k.value) :
    Readable bare (.call s v es ks) := by
  refine .of_leads (h.fronted 14) (.inl rfl) fun n rest hstops hlen post hloop => ?_
  obtain ⟨lss, hlss⟩ : ∃ lss, es.map (Expr.write bare 14) ++ ks.map (Keyword.write bare) = lss :=
    ⟨_, rfl⟩
  have hform : (Expr.call s v es ks).body bare 14 ++ rest =
      v.write bare 1 ++ .mark .parenOpen :: (commas lss ++ .mark .parenClose :: rest) := by
    simp [Expr.body, Expr.write, wrapped, ← hlss]
  rw [hform] at hlen ⊢
  refine hv.leads n 1 _ (.inl rfl) (stops_cons (by decide)) hlen post fun b turns hb hturns => ?_
  have harguments := Readable.arguments (n := n) hes hks
  rw [hlss] at harguments
  have hpos := List.length_pos_iff.2 (hv.write_ne_nil (p := 1) (by decide))
  rw [List.length_append, List.length_cons] at hlen
  rw [List.length_cons, List.length_append, List.length_cons] at hturns
  obtain ⟨turns, rfl⟩ : ∃ k, turns = k + 1 := ⟨turns - 1, by omega⟩
  have hitems := itemLoop_reads rest harguments (m := .parenClose) rfl (by omega) (Nat.le_succ _)
  refine .peek (.pop (by simp) fun t _ => .remaining ?_)
  rw [argumentLoop_eq, bind_map_left]
  refine hitems.bind ?_
  rintro ⟨as, comma⟩ _ ⟨has, -, rfl⟩
  obtain ⟨hpositionals, hkeywords⟩ := positionals_append (es.map Expr.unplaced) (ks.map Keyword.unplaced)
  rw [← has, ← positionals_unplaced] at hpositionals
  rw [← has, ← keywords_unplaced] at hkeywords
  exact .expect rfl (by simp) fun t _ =>
    hloop _ turns (by simp [Expr.unplaced, hb, hpositionals, hkeywords]) (by omega)

/-- A comma or the closing bracket stands behind an item of a subscript. -/
def EndsIndex (ls : List Lexeme) : Prop :=
  nextKind ls = .mark .comma ∨ nextKind ls = .mark .bracketClose

theorem EndsIndex.endsItem {ls : List Lexeme} (h : EndsIndex ls) : EndsItem ls := by
  rcases h with h | h
  · exact ⟨_, h, .inl rfl⟩
  · exact ⟨_, h, .inr rfl⟩

theorem EndsIndex.ne_colon {ls : List Lexeme} (h : EndsIndex ls) : nextKind ls ≠ .mark .colon := by
  rcases h with h | h <;> simp [h]

/-- Whether a kind is that of one of some marks. -/
def isAmong (marks : List Mark) : Kind → Bool
  | .mark m => marks.contains m
  | _ => false

theorem Reads.atMark {α : Type} {marks : List Mark} {ls : List Lexeme} {f : Bool → Reader α}
    {post : α → List Lexeme → Prop} (h : Reads (f (isAmong marks (nextKind ls))) ls post) :
    Reads (Grammar.atMark marks >>= f) ls post := by
  rw [Grammar.atMark, bind_assoc]
  refine .peek ?_
  cases hk : nextKind ls <;> rw [hk] at h <;> exact h

theorem Readable.not_among (h : Readable bare e) {marks : List Mark}
    (hmarks : ∀ m ∈ marks, 14 < Surface.entry (.mark m)) :
    isAmong marks (nextKind (e.write bare 14 ++ rest)) = false := by
  unfold isAmong
  split
  · rename_i m hm
    rw [List.contains_eq_mem, decide_eq_false_iff_not]
    exact fun hmem => h.next_ne (by decide) (hmarks m hmem) hm
  · rfl

/-- The step of a slice is read with its colon. -/
theorem sliceStep_reads {c : Option Expr} (hc : ∀ x ∈ c.toList, Readable bare x) (hends : EndsIndex rest)
    (hlen : (stepForm bare c ++ rest).length ≤ n) :
    Yields (Option.map Expr.unplaced) (sliceStep (level n)) (c.map Expr.unplaced)
      (stepForm bare c ++ rest) rest := by
  cases c with
  | none => exact .other hends.ne_colon (.pure ⟨rfl, rfl⟩)
  | some c =>
    have hc := hc c List.mem_cons_self
    have hform : stepForm bare (some c) ++ rest = .mark .colon :: (c.write bare 14 ++ rest) := rfl
    rw [hform] at hlen ⊢
    refine .same rfl (.pop (by simp) fun t _ => .atMark ?_)
    rw [hc.not_among (by decide), if_neg (by decide)]
    exact (hc.test hends.endsItem.stops (Nat.le_of_succ_le hlen)).bind
      fun a ha => .pure ⟨by simp [ha], rfl⟩

/-- A slice is read from its first colon on. -/
theorem sliceFrom_reads {t : Span} {a b c lower : Option Expr} {start : Nat}
    (hlower : lower.map Expr.unplaced = a.map Expr.unplaced) (hb : ∀ x ∈ b.toList, Readable bare x)
    (hc : ∀ x ∈ c.toList, Readable bare x) (hends : EndsIndex rest)
    (hlen : (.mark .colon :: (optionForm bare b ++ (stepForm bare c ++ rest))).length ≤ n) :
    Yields Expr.unplaced (sliceFrom (level n) start lower) (Expr.slice t a b c).unplaced
      (.mark .colon :: (optionForm bare b ++ (stepForm bare c ++ rest))) rest := by
  have hnext : isAmong [.colon, .comma, .bracketClose] (nextKind (stepForm bare c ++ rest)) = true := by
    cases c with
    | none => rcases hends with h | h <;> simp [stepForm, h, isAmong]
    | some c => rfl
  have hstops : Stops 14 (stepForm bare c ++ rest) := by
    cases c with
    | none => exact hends.endsItem.stops
    | some c => exact stops_cons (by decide)
  rw [List.length_cons] at hlen
  have hstep := sliceStep_reads (n := n) hc hends (by rw [List.length_append] at hlen; omega)
  refine .pop (by simp) fun t _ => .atMark ?_
  cases b with
  | none =>
    rw [optionForm, List.nil_append, hnext, if_pos rfl, pure_bind]
    exact hstep.bind fun step hstep => .spanFrom fun _ =>
      .pure ⟨by simp [Expr.unplaced, hlower, hstep], rfl⟩
  | some b =>
    have hb := hb b List.mem_cons_self
    have hform : optionForm bare (some b) = b.write bare 14 := rfl
    rw [hform] at hlen ⊢
    rw [hb.not_among (by decide), if_neg (by decide), bind_map_left]
    exact (hb.test hstops (by omega)).bind fun upper hupper => hstep.bind fun step hstep =>
      .spanFrom fun _ => .pure ⟨by simp [Expr.unplaced, hlower, hupper, hstep], rfl⟩

/-- An expression is an item of a subscript. -/
theorem Readable.index (h : Readable bare e) :
    Item Expr.unplaced (subscriptItem (level n)) EndsIndex n e.unplaced (e.write bare 14) where
  starts := startsItem_of (h.starts (by decide))
  reads rest hends hlen := by
    refine .start fun start => .missed (h.next_ne (by decide) (by decide)) ?_
    exact (h.test hends.endsItem.stops hlen).bind fun a ha => .other hends.ne_colon (.pure ⟨ha, rfl⟩)

/-- A slice is an item of a subscript. -/
theorem slice_index {t : Span} {a b c : Option Expr}
    (h : ∀ x ∈ (Expr.slice t a b c).parts, Readable bare x) :
    Item Expr.unplaced (subscriptItem (level n)) EndsIndex n (Expr.slice t a b c).unplaced
      ((Expr.slice t a b c).write bare 14) where
  starts := by
    cases a with
    | none => rfl
    | some a =>
      have ha : Readable bare a := h a (by simp [Expr.parts])
      exact startsItem_of (ha.starts_append (by decide))
  reads rest hends hlen := by
    have hb : ∀ x ∈ b.toList, Readable bare x := fun x hx => h x (by simp [Expr.parts, hx])
    have hc : ∀ x ∈ c.toList, Readable bare x := fun x hx => h x (by simp [Expr.parts, hx])
    refine .start fun start => ?_
    cases a with
    | none =>
      have hform : (Expr.slice t none b c).write bare 14 ++ rest =
          .mark .colon :: (optionForm bare b ++ (stepForm bare c ++ rest)) := by
        simp [Expr.write, within, Expr.looseness, Expr.body, optionForm]
      rw [hform] at hlen ⊢
      exact .found rfl (sliceFrom_reads rfl hb hc hends hlen)
    | some a =>
      have ha : Readable bare a := h a (by simp [Expr.parts])
      have hform : (Expr.slice t (some a) b c).write bare 14 ++ rest =
          a.write bare 14 ++ .mark .colon :: (optionForm bare b ++ (stepForm bare c ++ rest)) := by
        simp [Expr.write, within, Expr.looseness, Expr.body, optionForm]
      rw [hform] at hlen ⊢
      refine .missed (ha.next_ne (by decide) (by decide)) ?_
      refine (ha.test (stops_cons (by decide)) hlen).bind fun lower hlower => .same rfl ?_
      rw [List.length_append] at hlen
      exact sliceFrom_reads (by simp [hlower]) hb hc hends (by omega)

/-- The items of a subscript are read up to the closing bracket. -/
theorem subscriptLoop_reads {bs : List Expr} {lss : List (List Lexeme)}
    (h : List.Forall₂ (Item Expr.unplaced (subscriptItem (level n)) EndsIndex n) bs lss) (hbs : bs ≠ [])
    (hlen : (commas lss ++ .mark .bracketClose :: rest).length ≤ n)
    (hturns : (commas lss ++ .mark .bracketClose :: rest).length ≤ turns) :
    Reads (subscriptLoop (level n) turns) (commas lss ++ .mark .bracketClose :: rest) fun as ls =>
      as.1.map Expr.unplaced = bs ∧ as.2 = decide (2 ≤ bs.length) ∧
        ls = .mark .bracketClose :: rest := by
  induction h generalizing turns with
  | nil => exact absurd rfl hbs
  | cons hitem hitems ih =>
    obtain ⟨turns, rfl⟩ : ∃ k, turns = k + 1 := ⟨turns - 1, by
      rw [List.length_append, List.length_cons] at hturns
      omega⟩
    cases hitems with
    | nil =>
      exact (hitem.reads _ (.inr rfl) hlen).bind fun a ha =>
        .other (by simp) (.pure ⟨by simp [ha], rfl, rfl⟩)
    | cons hnext hitems =>
      rw [commas, List.append_assoc, List.cons_append] at hlen hturns ⊢
      refine (hitem.reads _ (.inl rfl) hlen).bind fun a ha => .same rfl (.pop (by simp) fun t _ => ?_)
      rw [List.length_append, List.length_cons] at hlen hturns
      refine .missed (by rw [commas_cons, List.append_assoc]; exact hnext.next_ne rfl) ?_
      refine (ih (by simp) (by omega) (by omega)).bind ?_
      rintro ⟨as, comma⟩ _ ⟨has, -, rfl⟩
      exact .pure ⟨by simp [ha, has], by simp, rfl⟩

/-- The items of a tuple without parentheses are read up to the closing bracket. -/
theorem subscriptLoop_listed {bs : List Expr} {lss : List (List Lexeme)}
    (h : List.Forall₂ (Item Expr.unplaced (subscriptItem (level n)) EndsIndex n) bs lss) (hbs : bs ≠ [])
    (hlen : (listed lss ++ .mark .bracketClose :: rest).length ≤ n)
    (hturns : (listed lss ++ .mark .bracketClose :: rest).length ≤ turns) :
    Reads (subscriptLoop (level n) turns) (listed lss ++ .mark .bracketClose :: rest) fun as ls =>
      as.1.map Expr.unplaced = bs ∧ as.2 = true ∧ ls = .mark .bracketClose :: rest := by
  rcases h with _ | ⟨hitem, _ | ⟨hnext, hitems⟩⟩
  · exact absurd rfl hbs
  · rw [listed, List.append_assoc, List.singleton_append] at hlen hturns ⊢
    obtain ⟨turns, rfl⟩ : ∃ k, turns = k + 1 := ⟨turns - 1, by
      rw [List.length_append, List.length_cons] at hturns
      omega⟩
    exact (hitem.reads _ (.inl rfl) hlen).bind fun a ha => .same rfl (.pop (by simp) fun t _ =>
      .found rfl (.pure ⟨by simp [ha], rfl, rfl⟩))
  · refine (subscriptLoop_reads (.cons hitem (.cons hnext hitems)) hbs hlen hturns).mono ?_
    rintro as ls ⟨has, hcomma, hls⟩
    exact ⟨has, by simpa using hcomma, hls⟩

theorem isSlice_unplaced (e : Expr) : e.unplaced.isSlice = e.isSlice := by
  cases e <;> rfl

theorem any_isSlice_unplaced {es as : List Expr} (h : as.map Expr.unplaced = es.map Expr.unplaced) :
    as.any Expr.isSlice = es.any Expr.isSlice := by
  have hany := congrArg (List.any · Expr.isSlice) h
  simpa [List.any_map, Function.comp_def, isSlice_unplaced] using hany

/-- One item is read as it is. -/
theorem subscripts_one {b : Expr} {ls : List Lexeme}
    (h : Item Expr.unplaced (subscriptItem (level n)) EndsIndex n b ls)
    (hlen : (ls ++ .mark .bracketClose :: rest).length ≤ n) :
    Yields Expr.unplaced (subscripts (level n)) b (ls ++ .mark .bracketClose :: rest)
      (.mark .bracketClose :: rest) := by
  refine .start fun start => .remaining ?_
  refine (subscriptLoop_reads (.cons h .nil) (by simp) hlen (Nat.le_succ _)).bind ?_
  rintro ⟨as, comma⟩ _ ⟨has, rfl, rfl⟩
  obtain ⟨a, rfl, ha⟩ := List.map_eq_singleton_iff.1 has
  exact .pure ⟨ha, rfl⟩

/-- Several items are read as a tuple, which is extended when a slice is among them. -/
theorem subscripts_listed {lss : List (List Lexeme)}
    (h : List.Forall₂ (Item Expr.unplaced (subscriptItem (level n)) EndsIndex n) (es.map Expr.unplaced)
      lss) (hes : es ≠ []) (hlen : (listed lss ++ .mark .bracketClose :: rest).length ≤ n) :
    Yields Expr.unplaced (subscripts (level n))
      (if es.any Expr.isSlice then .extSlice default (es.map Expr.unplaced)
        else .tuple default (es.map Expr.unplaced))
      (listed lss ++ .mark .bracketClose :: rest) (.mark .bracketClose :: rest) := by
  refine .start fun start => .remaining ?_
  refine (subscriptLoop_listed h (by simpa using hes) hlen (Nat.le_succ _)).bind ?_
  rintro ⟨as, comma⟩ _ ⟨has, rfl, rfl⟩
  have hany := any_isSlice_unplaced has
  dsimp only
  split
  · rename_i hcomma
    cases hcomma
  · refine .spanFrom fun span => .pure ⟨?_, rfl⟩
    rw [hany]
    split <;> simp [Expr.unplaced, has]

theorem Plain.not_slice (h : Plain e) : e.isSlice = false := by
  cases h <;> rfl

theorem Expr.parts_of_not_slice (h : e.isSlice = false) : e.parts = [e] := by
  cases e <;> first | rfl | cases h

/-- The dimensions of an extended slice are items of a subscript. -/
theorem Readable.dimension (h : ∀ x ∈ e.parts, Readable bare x) :
    Item Expr.unplaced (subscriptItem (level n)) EndsIndex n e.unplaced (e.write bare 14) := by
  cases e with
  | slice t a b c => exact slice_index h
  | _ => exact (h _ List.mem_cons_self).index

theorem Readable.dimensions (h : ∀ d ∈ es, ∀ x ∈ d.parts, Readable bare x) :
    List.Forall₂ (Item Expr.unplaced (subscriptItem (level n)) EndsIndex n) (es.map Expr.unplaced)
      (es.map (Expr.write bare 14)) := by
  induction es with
  | nil => exact .nil
  | cons d es ih =>
    exact .cons (dimension (h d List.mem_cons_self)) (ih fun d' hd' => h d' (List.mem_cons_of_mem _ hd'))

theorem Readable.subscript {i : Expr} (h : Plain (.subscript s v i)) (hi : Plain i)
    (helems : ∀ x ∈ i.elems, Plain x) (hv : Readable bare v) (hr : Legible bare i) :
    Readable bare (.subscript s v i) := by
  refine .subscript_of h hv fun n rest hlen => ?_
  rcases i.writeList_cases bare 14 with hform | ⟨s, x, es, rfl, hform⟩ <;> rw [hform] at hlen ⊢
  · exact subscripts_one hr.whole.index hlen
  · have hnone : (x :: es).any Expr.isSlice = false := by
      rw [List.any_eq_false]
      exact fun e he => by simp [(helems e he).not_slice]
    have hitems : List.Forall₂ (Item Expr.unplaced (subscriptItem (level n)) EndsIndex n)
        ((x :: es).map Expr.unplaced) ((x :: es).map (Expr.write bare 14)) := by
      refine Readable.dimensions fun d hd y hy => ?_
      rw [Expr.parts_of_not_slice (helems d hd).not_slice, List.mem_singleton] at hy
      exact hy ▸ hr.elems d hd
    have hread := subscripts_listed hitems (by simp) hlen
    rw [hnone] at hread
    simpa [Expr.unplaced] using hread

theorem Readable.sliced {t : Span} {a b c : Option Expr} (h : Plain (.subscript s v (.slice t a b c)))
    (hv : Readable bare v) (hparts : ∀ x ∈ (Expr.slice t a b c).parts, Readable bare x) :
    Readable bare (.subscript s v (.slice t a b c)) := by
  refine .subscript_of h hv fun n rest hlen => ?_
  have hform : (Expr.slice t a b c).writeList bare 14 = (Expr.slice t a b c).write bare 14 := by
    simp [Expr.writeList, Expr.write, withinList, Expr.looseness]
  rw [hform] at hlen ⊢
  exact subscripts_one (slice_index hparts) hlen

theorem Readable.slicedBy {t : Span} (h : Plain (.subscript s v (.extSlice t es))) (hv : Readable bare v)
    (hparts : ∀ d ∈ es, ∀ x ∈ d.parts, Readable bare x) (hany : es.any Expr.isSlice = true) :
    Readable bare (.subscript s v (.extSlice t es)) := by
  refine .subscript_of h hv fun n rest hlen => ?_
  have hform : (Expr.extSlice t es).writeList bare 14 = listed (es.map (Expr.write bare 14)) := by
    simp [Expr.writeList, withinList, within, Expr.looseness, Expr.body]
  have hne : es ≠ [] := by
    rintro rfl
    cases hany
  rw [hform] at hlen ⊢
  have hread := subscripts_listed (Readable.dimensions hparts) hne hlen
  rw [hany] at hread
  simpa [Expr.unplaced] using hread

end

end Hoist.Surface
