import Hoist.Proofs.Surface.Writing

/-!
# Plain expressions

Plain expressions are those that have a reference form: their names are no keywords, their constants are
texts, truth values and integers that are not negative, their operators stand where they belong, and
slices and starred values stand only where the grammar has a place for them. The form of a plain
expression is cut into its lexemes again, and its first lexemes tell which rule reads it.
-/

namespace Hoist.Surface

/-- The constants that have a reference form. -/
def IsPlainLiteral : Literal → Prop
  | .int i => 0 ≤ i.toInt
  | .double _ => False
  | _ => True

namespace Expr

/-- An argument of a call without its star. -/
def unstarred : Expr → Expr
  | .starred _ v => v
  | e => e

/-- The parts of a slice, or an expression that is no slice as its only part. -/
def parts : Expr → List Expr
  | .slice _ a b c => a.toList ++ (b.toList ++ c.toList)
  | e => [e]

end Expr

/-- Parameters that are all positional, without default values. -/
def Params.ArePlain (ps : Params Expr) : Prop :=
  ps = { positional := ps.positional } ∧ ∀ p ∈ ps.positional, Lexeme.IsName p.name

/-- The expressions that have a reference form. -/
inductive Plain : Expr → Prop
  | name {s id} (named : Lexeme.IsName id) : Plain (.name s id)
  | constant {s v} (written : IsPlainLiteral v) : Plain (.constant s v)
  | binary {s op l r} (infixed : op.isBinary = true) (left : Plain l) (right : Plain r) :
      Plain (.binary s op l r)
  | unary {s op x} (prefixed : op.isUnary = true) (operand : Plain x) : Plain (.unary s op x)
  | boolean {s op vs} (connects : op.isConnective = true) (several : 2 ≤ vs.length)
      (values : ∀ v ∈ vs, Plain v) : Plain (.boolean s op vs)
  | compare {s l rest} (nonempty : rest ≠ []) (compares : ∀ p ∈ rest, p.1.isComparison = true)
      (left : Plain l) (values : ∀ p ∈ rest, Plain p.2) : Plain (.compare s l rest)
  | call {s f args ks} (callee : Plain f) (positional : ∀ a ∈ args, Plain a.unstarred)
      (named : ∀ k ∈ ks, ∀ n ∈ k.name?, Lexeme.IsName n) (keyed : ∀ k ∈ ks, Plain k.value) :
      Plain (.call s f args ks)
  | attr {s v a} (value : Plain v) (named : Lexeme.IsName a) : Plain (.attribute s v a)
  | subscript {s v i} (value : Plain v) (index : Plain i) : Plain (.subscript s v i)
  | sliced {s t v a b c} (value : Plain v)
      (parts : ∀ x ∈ (Expr.slice t a b c).parts, Plain x) : Plain (.subscript s v (.slice t a b c))
  | slicedBy {s t v dims} (value : Plain v) (parts : ∀ d ∈ dims, ∀ x ∈ d.parts, Plain x)
      (slice : dims.any Expr.isSlice = true) : Plain (.subscript s v (.extSlice t dims))
  | tuple {s es} (elems : ∀ e ∈ es, Plain e) : Plain (.tuple s es)
  | list {s es} (elems : ∀ e ∈ es, Plain e) : Plain (.list s es)
  | dict {s entries} (keys : ∀ p ∈ entries, Plain p.1) (values : ∀ p ∈ entries, Plain p.2) :
      Plain (.dict s entries)
  | lambda {s ps b} (params : ps.ArePlain) (body : Plain b) : Plain (.lambda s ps b)
  | conditional {s t b o} (test : Plain t) (body : Plain b) (orelse : Plain o) :
      Plain (.conditional s t b o)
  | listComp {s e gs} (elem : Plain e) (nonempty : gs ≠ []) (targets : ∀ g ∈ gs, Plain g.target)
      (iters : ∀ g ∈ gs, Plain g.iter) (conditions : ∀ g ∈ gs, ∀ c ∈ g.conditions, Plain c) :
      Plain (.listComp s e gs)

/-- The loosest rule that a token of a kind starts by itself, beyond all rules if no expression starts
with it. -/
def entry : Kind → Nat
  | .identifier | .number | .string | .word .true_ | .word .false_ | .word .none_
  | .mark .parenOpen | .mark .bracketOpen | .mark .braceOpen => 0
  | .mark .plus | .mark .minus | .mark .tilde => 3
  | .word .not_ => 11
  | .word .lambda_ => 14
  | _ => 16

/-- Some lexemes start like an expression of some looseness. -/
structure Fronted (p : Nat) (ls : List Lexeme) : Prop where
  entry : entry (nextKind ls) ≤ p
  /-- They do not look like the name of a keyword argument. -/
  unkeyed : ∀ rest, nextKind rest ≠ .mark .equal → nextKind (ls ++ rest) = .identifier →
    secondKind (ls ++ rest) ≠ .mark .equal

namespace Fronted

variable {p q : Nat} {ls ms : List Lexeme} {x : Lexeme}

theorem ne_nil (h : Fronted p ls) (hp : p ≤ 15) : ls ≠ [] := by
  rintro rfl
  exact absurd (Nat.le_trans h.entry hp) (by decide)

theorem entry_append (h : Fronted p ls) (hp : p ≤ 15) : Surface.entry (nextKind (ls ++ ms)) ≤ p := by
  obtain ⟨x, ls, rfl⟩ := List.exists_cons_of_ne_nil (h.ne_nil hp)
  exact h.entry

theorem mono (h : Fronted p ls) (hpq : p ≤ q) : Fronted q ls :=
  ⟨Nat.le_trans h.entry hpq, h.unkeyed⟩

/-- What starts with another token than a name does not start like a keyword argument. -/
theorem of_kind (hx : x.kind ≠ .identifier) (hp : Surface.entry x.kind ≤ p) : Fronted p (x :: ls) :=
  ⟨hp, fun _ _ h => absurd h hx⟩

theorem append (h : Fronted p ls) (hp : p ≤ 15) (hms : nextKind ms ≠ .mark .equal) :
    Fronted p (ls ++ ms) := by
  obtain ⟨y, ls, rfl⟩ := List.exists_cons_of_ne_nil (h.ne_nil hp)
  refine ⟨h.entry, fun rest hrest => ?_⟩
  rw [List.append_assoc]
  refine h.unkeyed (ms ++ rest) ?_
  cases ms with
  | nil => exact hrest
  | cons z ms => exact hms

end Fronted

theorem fronted_wrapped (p : Nat) (ls : List Lexeme) : Fronted p (wrapped ls) :=
  .of_kind (by simp) (Nat.zero_le p)

section

variable {bare : Bool} {p q : Nat} {e : Expr} {es : List Expr} {op : Operator} {ls ms : List Lexeme}
  {lss : List (List Lexeme)}

theorem fronted_within (h : Fronted e.looseness ls) : Fronted p (within p e ls) := by
  unfold within
  split
  · exact fronted_wrapped p ls
  · rename_i hle
    exact h.mono (Nat.le_of_not_lt hle)

/-- An element of a list starts like some expression, whatever its position admits. -/
theorem fronted_element (h : Fronted e.looseness ls) : Fronted 15 (within p e ls) := by
  unfold within
  split
  · exact fronted_wrapped 15 ls
  · exact h.mono e.looseness_le

/-- An operand in front of an operator. -/
theorem fronted_operand (h : Fronted e.looseness ls) (hp : p ≤ q) (hq : q ≤ 15)
    (hms : nextKind ms ≠ .mark .equal) : Fronted q (within p e ls ++ ms) :=
  ((fronted_within h).append (Nat.le_trans hp hq) hms).mono hp

theorem fronted_commas (h : ∀ ls ∈ lss, Fronted 15 ls) (hne : lss ≠ []) : Fronted 15 (commas lss) := by
  rcases lss with _ | ⟨ls, _ | ⟨ms, lss⟩⟩
  · exact absurd rfl hne
  · exact h ls List.mem_cons_self
  · exact (h ls List.mem_cons_self).append (Nat.le_refl _) (by simp)

theorem fronted_listed (h : ∀ ls ∈ lss, Fronted 15 ls) (hne : lss ≠ []) : Fronted 15 (listed lss) := by
  unfold listed
  split
  · exact absurd rfl hne
  · exact (h _ List.mem_cons_self).append (Nat.le_refl _) (by simp)
  · exact fronted_commas h hne

theorem Operator.nextKind_lexemes_ne (op : Operator) (ls : List Lexeme) :
    nextKind (op.lexemes ++ ls) ≠ .mark .equal := by
  cases op <;> simp [lexemes]

theorem Operator.left_le (h : op.isBinary = true) : op.left ≤ op.looseness ∧ op.looseness ≤ 9 := by
  cases op <;> revert h <;> decide

theorem Operator.fronted_lexemes (h : op.isUnary = true) : Fronted op.looseness (op.lexemes ++ ls) := by
  cases op <;> first | exact absurd h (by decide) | exact .of_kind (by simp) (by decide)

theorem Operator.looseness_le (op : Operator) : op.looseness ≤ 15 := by
  cases op <;> decide

/-- The form of a plain expression starts as its looseness allows. -/
theorem Plain.fronted (h : Plain e) (q : Nat) : Fronted e.looseness (e.body bare q) := by
  induction h generalizing q with
  | @name s id named =>
    refine ⟨Nat.le_refl _, fun rest hrest _ => ?_⟩
    cases rest with
    | nil => simp [Expr.body, secondKind]
    | cons x rest => exact hrest
  | @constant s v written =>
    cases v with
    | none | int | string => exact .of_kind (by simp [Lexeme.literalKind]) (Nat.le_refl _)
    | bool b => cases b <;> exact .of_kind (by simp [Lexeme.literalKind]) (Nat.le_refl _)
    | double => exact written.elim
  | binary infixed left right ihl ihr =>
    have hop := Operator.left_le infixed
    exact fronted_operand (ihl 14) hop.1 (Operator.looseness_le _) (Operator.nextKind_lexemes_ne _ _)
  | unary unary operand ih => exact Operator.fronted_lexemes unary
  | @boolean s op vs connects several values ih =>
    obtain _ | ⟨v, _ | ⟨w, vs⟩⟩ := vs
    · cases several
    · simp at several
    · exact fronted_operand (ih v List.mem_cons_self 14) (Nat.sub_le _ _) (Operator.looseness_le _)
        (Operator.nextKind_lexemes_ne _ _)
  | @compare s l rest nonempty compares left values ihl ihr =>
    obtain ⟨⟨op, e⟩, rest, rfl⟩ := List.exists_cons_of_ne_nil nonempty
    exact fronted_operand (q := 10) (ihl 14) (by decide) (by decide) (Operator.nextKind_lexemes_ne _ _)
  | call callee _ _ _ ih _ _ =>
    exact fronted_operand (q := 1) (ih 14) (by decide) (by decide) (by simp [wrapped])
  | attr value _ ih | subscript value _ ih | sliced value _ ih | slicedBy value _ _ ih =>
    exact fronted_operand (q := 1) (ih 14) (by decide) (by decide) (by simp)
  | @tuple s es elems ih =>
    cases es with
    | nil => exact fronted_wrapped _ _
    | cons e es =>
      refine fronted_listed (fun ls hls => ?_) (by simp)
      rw [pieces_eq] at hls
      obtain ⟨e', he', rfl⟩ := List.mem_map.1 hls
      exact fronted_element (ih e' he' 14)
  | list | dict | listComp | lambda => exact .of_kind (by simp) (Nat.le_refl _)
  | conditional test body orelse iht ihb iho =>
    exact fronted_operand (q := 14) (ihb 14) (by decide) (by decide) (by simp)

theorem Plain.fronted_write (h : Plain e) (p : Nat) : Fronted p (e.write bare p) :=
  fronted_within (h.fronted 14)

/-- Where a list is admitted the form of a plain expression starts like some expression. -/
theorem Plain.fronted_list (h : Plain e) (hp : p ≤ 15) : Fronted 15 (e.writeList bare p) := by
  rcases e.writeList_cases bare p with hform | ⟨s, x, es, rfl, hform⟩ <;> rw [hform]
  · exact (h.fronted_write p).mono hp
  · refine fronted_listed (fun ls hls => ?_) (by simp)
    obtain ⟨y, hy, rfl⟩ := List.mem_map.1 hls
    cases h with
    | tuple elems => exact ((elems y hy).fronted_write p).mono hp

theorem Plain.writeList_ne_nil (h : Plain e) (hp : p ≤ 15) : e.writeList bare p ≠ [] :=
  (h.fronted_list hp).ne_nil (Nat.le_refl _)

theorem Tidy.wrapped (h : Tidy ls) : Tidy (wrapped ls) := h.bracketed (o := .parenOpen) rfl

theorem Tidy.mark (m : Mark) (hm : Kind.isBracket (.mark m) = false) (h : Tidy ls) :
    Tidy (.mark m :: ls) := h.cons (Lexeme.stands_mark m) hm

theorem Tidy.word (w : Word) (h : Tidy ls) : Tidy (.word w :: ls) := h.cons (Lexeme.stands_word w) rfl

theorem Tidy.name {id : String} (hid : Lexeme.IsName id) (h : Tidy ls) : Tidy (.name id :: ls) :=
  h.cons (Lexeme.stands_name hid) rfl

theorem Tidy.commas (h : ∀ ls ∈ lss, Tidy ls) : Tidy (Surface.commas lss) := by
  fun_induction Surface.commas lss with
  | case1 => exact .nil
  | case2 ls => exact h ls List.mem_cons_self
  | case3 ls ms lss ih =>
    have hlss := ih fun ls hls => h ls (List.mem_cons_of_mem _ hls)
    exact (h ls List.mem_cons_self).append (.mark _ rfl hlss)

theorem Tidy.listed (h : ∀ ls ∈ lss, Tidy ls) : Tidy (Surface.listed lss) := by
  unfold Surface.listed
  split
  · exact .wrapped .nil
  · exact (h _ List.mem_cons_self).append (.mark _ rfl .nil)
  · exact .commas h

theorem Tidy.within (h : Tidy ls) : Tidy (within p e ls) := by
  unfold Surface.within
  split
  · exact h.wrapped
  · exact h

theorem Tidy.withinList (h : Tidy ls) (h' : Tidy ms) : Tidy (withinList bare p e ls ms) := by
  unfold Surface.withinList
  split
  · exact h'
  · exact h.within

theorem Operator.tidy (op : Operator) : Tidy op.lexemes := by
  cases op <;> first
    | exact .mark _ rfl .nil
    | exact .word _ .nil
    | exact .word _ (.word _ .nil)

theorem tidy_literal {v : Literal} (h : IsPlainLiteral v) : Tidy [.literal v] := by
  cases v with
  | none => exact .word .none_ .nil
  | bool b => cases b <;> exact .word _ .nil
  | int i => exact .cons (Lexeme.stands_int h) rfl .nil
  | double => exact h.elim
  | string s => exact .cons (Lexeme.stands_string s) rfl .nil

theorem tidy_params {ps : Params Expr} (h : ps.ArePlain) : Tidy (paramLexemes ps) := by
  refine .commas fun ls hls => ?_
  obtain ⟨p, hp, rfl⟩ := List.mem_map.1 hls
  exact .name (h.2 p hp) .nil

theorem tidy_keyword {n : Option String} (h : ∀ id ∈ n, Lexeme.IsName id) : Tidy (keywordLexemes n) := by
  cases n with
  | none => exact .mark _ rfl .nil
  | some id => exact .name (h id rfl) (.mark _ rfl .nil)

theorem tidy_pieces (h : ∀ e ∈ es, ∀ q, Tidy (e.body bare q)) : ∀ ls ∈ pieces bare p es, Tidy ls := by
  intro ls hls
  rw [pieces_eq] at hls
  obtain ⟨e, he, rfl⟩ := List.mem_map.1 hls
  exact (h e he 14).within

theorem tidy_joined (h : ∀ e ∈ es, ∀ q, Tidy (e.body bare q)) : Tidy (joined bare op es) := by
  induction es with
  | nil => exact .nil
  | cons e es ih =>
    have hes := ih fun e' he' => h e' (List.mem_cons_of_mem _ he')
    cases es with
    | nil => exact (h e List.mem_cons_self 14).within
    | cons e' es => exact (h e List.mem_cons_self 14).within.append (op.tidy.append hes)

theorem tidy_comparisons {rest : List (Operator × Expr)} (h : ∀ p ∈ rest, ∀ q, Tidy (p.2.body bare q)) :
    Tidy (comparisonForms bare rest) := by
  induction rest with
  | nil => exact .nil
  | cons p rest ih =>
    exact p.1.tidy.append ((h p List.mem_cons_self 14).within.append
      (ih fun p' hp' => h p' (List.mem_cons_of_mem _ hp')))

theorem tidy_conditions (h : ∀ e ∈ es, ∀ q, Tidy (e.body bare q)) : Tidy (conditionForms bare es) := by
  induction es with
  | nil => exact .nil
  | cons e es ih =>
    exact .word _ ((h e List.mem_cons_self 14).within.append
      (ih fun e' he' => h e' (List.mem_cons_of_mem _ he')))

theorem tidy_generators {gs : List (Generator Expr)} (ht : ∀ g ∈ gs, ∀ q, Tidy (g.target.body bare q))
    (hi : ∀ g ∈ gs, ∀ q, Tidy (g.iter.body bare q))
    (hc : ∀ g ∈ gs, ∀ c ∈ g.conditions, ∀ q, Tidy (c.body bare q)) : Tidy (generatorForms bare gs) := by
  induction gs with
  | nil => exact .nil
  | cons g gs ih =>
    have hg := ih (fun g' hg' => ht g' (List.mem_cons_of_mem _ hg'))
      (fun g' hg' => hi g' (List.mem_cons_of_mem _ hg'))
      (fun g' hg' => hc g' (List.mem_cons_of_mem _ hg'))
    have htarget := ht g List.mem_cons_self
    exact .word _ (((htarget 14).withinList (htarget 9)).append
      (.word _ ((hi g List.mem_cons_self 14).within.append
        ((tidy_conditions (hc g List.mem_cons_self)).append hg))))

/-- The form of a part of a slice is tidy when that of the part is. -/
theorem tidy_option {e : Option Expr} (h : ∀ x ∈ e.toList, ∀ q, Tidy (x.body bare q)) :
    Tidy (optionForm bare e) := by
  cases e with
  | none => exact .nil
  | some e => exact (h e List.mem_cons_self 14).within

theorem tidy_slice {s : Span} {a b c : Option Expr}
    (h : ∀ x ∈ (Expr.slice s a b c).parts, ∀ q, Tidy (x.body bare q)) :
    Tidy ((Expr.slice s a b c).body bare q) := by
  simp only [Expr.parts, List.mem_append] at h
  refine (tidy_option fun x hx => h x (.inl hx)).append (.mark _ rfl
    ((tidy_option fun x hx => h x (.inr (.inl hx))).append ?_))
  cases c with
  | none => exact .nil
  | some c => exact .mark _ rfl (h c (by simp) 14).within

/-- A dimension of an extended slice is tidy when its parts are. -/
theorem tidy_dimension (h : ∀ x ∈ e.parts, ∀ q, Tidy (x.body bare q)) (q : Nat) :
    Tidy (e.body bare q) := by
  cases e with
  | slice => exact tidy_slice h
  | _ => exact h _ List.mem_cons_self q

/-- An argument is tidy when it is without its star. -/
theorem tidy_argument (h : ∀ q, Tidy (e.unstarred.body bare q)) (q : Nat) : Tidy (e.body bare q) := by
  cases e with
  | starred s v => exact .mark _ rfl (h 14).within
  | _ => exact h q

/-- The form of a plain expression is cut into its lexemes. -/
theorem Plain.tidy (h : Plain e) (q : Nat) : Tidy (e.body bare q) := by
  induction h generalizing q with
  | name named => exact .name named .nil
  | constant written => exact tidy_literal written
  | @binary s op l r _ _ _ ihl ihr => exact (ihl 14).within.append (op.tidy.append (ihr 14).within)
  | @unary s op x _ _ ih => exact op.tidy.append (ih 14).within
  | boolean _ _ _ ih => exact tidy_joined ih
  | compare _ _ _ _ ihl ihr => exact (ihl 14).within.append (tidy_comparisons ihr)
  | @call s f args ks _ _ named _ ihf iha ihk =>
    refine (ihf 14).within.append (.wrapped (.commas fun ls hls => ?_))
    rcases List.mem_append.1 hls with hls | hls
    · exact tidy_pieces (fun a ha => tidy_argument (iha a ha)) ls hls
    · rw [keywordPieces_eq] at hls
      obtain ⟨k, hk, rfl⟩ := List.mem_map.1 hls
      exact (tidy_keyword (named k hk)).append (ihk k hk 14).within
  | attr _ named ih => exact (ih 14).within.append (.mark _ rfl (.name named .nil))
  | subscript _ _ ihv ihi =>
    exact (ihv 14).within.append (((ihi 14).withinList (ihi 14)).bracketed rfl)
  | sliced _ _ ihv ihs =>
    exact (ihv 14).within.append (((tidy_slice ihs).withinList (tidy_slice ihs)).bracketed rfl)
  | slicedBy _ _ _ ihv ihd =>
    have hdims := Tidy.listed (tidy_pieces (p := 14) fun d hd => tidy_dimension (ihd d hd))
    exact (ihv 14).within.append ((hdims.withinList hdims).bracketed rfl)
  | tuple _ ih => exact .listed (tidy_pieces ih)
  | list _ ih => exact (Tidy.commas (tidy_pieces ih)).bracketed rfl
  | dict _ _ ihk ihv =>
    refine Tidy.bracketed rfl (.commas fun ls hls => ?_)
    rw [entryPieces_eq] at hls
    obtain ⟨p, hp, rfl⟩ := List.mem_map.1 hls
    exact (ihk p hp 14).within.append (.mark _ rfl (ihv p hp 14).within)
  | lambda params _ ih => exact .word _ ((tidy_params params).append (.mark _ rfl (ih 14).within))
  | conditional _ _ _ iht ihb iho =>
    exact (ihb 14).within.append (.word _ ((iht 14).within.append (.word _ (iho 14).within)))
  | listComp _ _ _ _ _ ihe iht ihi ihc =>
    rw [Expr.body, ← List.append_assoc]
    exact ((ihe 14).within.append (tidy_generators iht ihi ihc)).bracketed rfl

theorem Plain.tidy_write (h : Plain e) (p : Nat) : Tidy (e.write bare p) := (h.tidy 14).within

theorem Plain.tidy_writeList (h : Plain e) (p : Nat) : Tidy (e.writeList bare p) :=
  (h.tidy 14).withinList (h.tidy p)

end

end Hoist.Surface
