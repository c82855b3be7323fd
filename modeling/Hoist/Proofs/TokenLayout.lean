import Hoist.Proofs.Surface.Scanned
import Mathlib.Data.List.Chain

/-!
# The layout of the tokens of a text

The tokens of every text are well laid out: blocks that start also end, brackets are closed by their
partners and hold no layout, blocks start and end only behind line ends, and the last line is ended.
The readers of statements rely on it: a block that they enter has an end.
-/

namespace Hoist.Surface

/-- The kinds of tokens. -/
def kinds (tokens : List Token) : List Kind := tokens.map (·.kind)

@[simp] theorem kinds_cons (t : Token) (tokens : List Token) :
    kinds (t :: tokens) = t.kind :: kinds tokens := rfl

@[simp] theorem kinds_append (tokens tokens' : List Token) :
    kinds (tokens ++ tokens') = kinds tokens ++ kinds tokens' := List.map_append

/-- Whether tokens of a kind open or close a bracket. -/
def Kind.isBracket : Kind → Bool
  | .mark m => m.closing?.isSome || m.isClosing
  | _ => false

/-- Brackets are closed by their partners, and hold no layout. -/
inductive Nested : List Kind → Prop
  | nil : Nested []
  | plain {k rest} (hk : k.isBracket = false) (hrest : Nested rest) : Nested (k :: rest)
  | pair {o c inner rest} (hc : o.closing? = some c) (hlayout : ∀ k ∈ inner, k.isLayout = false)
      (hinner : Nested inner) (hrest : Nested rest) :
      Nested (.mark o :: (inner ++ .mark c :: rest))

/-- The shape that layout and brackets give to the tokens of a text. -/
structure WellLaid (kinds : List Kind) : Prop where
  /-- The end of the input is the last token and no other. -/
  ended : ∃ inner, kinds = inner ++ [.endOfInput] ∧ .endOfInput ∉ inner
  /-- No more blocks have ended than have started. -/
  started : ∀ front, front <+: kinds → front.count .dedent ≤ front.count .indent
  /-- All blocks that start end. -/
  closed : kinds.count .dedent = kinds.count .indent
  nested : Nested kinds
  /-- A block starts at the start of the text or behind a line end. -/
  indent : ∀ front rest, kinds = front ++ .indent :: rest →
    front = [] ∨ front.getLast? = some .newline
  /-- A block ends behind a line end or the end of another block. -/
  dedent : ∀ front rest, kinds = front ++ .dedent :: rest →
    front.getLast? = some .newline ∨ front.getLast? = some .dedent
  /-- A line end stands behind the last token that is no layout, before blocks end there. -/
  lastLine : ∀ front k rest, kinds = front ++ k :: rest → k.isLayout = false →
    (∀ l ∈ rest, l.isLayout = true) → ∃ before after, rest = before ++ .newline :: after ∧
      .dedent ∉ before

namespace Lexer

variable {context : Context} {atMargin : Bool} {pos width n m : Nat} {text rest : List Char}
  {tokens opened brackets brackets' outer : List Token} {indents indents' : List Nat} {t : Token}
  {k : Kind} {ks : List Kind}

theorem kinds_dedents (indents : List Nat) (pos : Nat) :
    kinds (indents.map fun _ => ⟨.dedent, pos, []⟩) = List.replicate indents.length .dedent := by
  rw [kinds, List.map_map, ← List.map_const']
  rfl

/-- At the end of a text no bracket is open, and the open blocks end behind the last line. -/
theorem finish_spec (h : finish context pos = .ok tokens) : context.brackets = [] ∧
    kinds tokens = (if context.unended then [.newline] else []) ++
      (List.replicate context.indents.length .dedent ++ [.endOfInput]) := by
  unfold finish at h
  split at h
  · cases h
  · rename_i hbrackets
    cases h
    refine ⟨hbrackets, ?_⟩
    rw [List.append_assoc, kinds_append, kinds_append, kinds_dedents]
    cases context.unended <;> rfl

/-- A margin opens one block, or closes the innermost ones. -/
theorem layout_spec (h : layout indents width pos rest = .ok (opened, indents')) :
    (kinds opened = [.indent] ∧ indents' = width :: indents) ∨
      ∃ inner, indents = inner ++ indents' ∧
        kinds opened = List.replicate inner.length .dedent := by
  unfold layout at h
  split at h
  · cases h
    exact .inl ⟨rfl, rfl⟩
  · dsimp only at h
    split at h
    · cases h
      exact .inr ⟨_, List.takeWhile_append_dropWhile.symm, kinds_dedents _ _⟩
    · cases h

/-- A token that is no bracket leaves the open brackets, an opening one is added to them, and a closing
one takes its partner away. -/
theorem matchBracket_spec (h : matchBracket brackets t = .ok brackets') :
    (t.kind.isBracket = false ∧ brackets' = brackets) ∨
      (∃ o c, t.kind = .mark o ∧ o.closing? = some c ∧ brackets' = t :: brackets) ∨
      ∃ opening o c, brackets = opening :: brackets' ∧ opening.kind = .mark o ∧
        o.closing? = some c ∧ t.kind = .mark c := by
  unfold matchBracket at h
  split at h
  · rename_i m hm
    split at h
    · rename_i hopen
      cases h
      obtain ⟨c, hc⟩ := Option.isSome_iff_exists.1 hopen
      exact .inr (.inl ⟨m, c, hm, hc, rfl⟩)
    split at h
    · split at h
      · rename_i o start text outer
        split at h
        · rename_i hclose
          cases h
          exact .inr (.inr ⟨_, o, m, rfl, rfl, beq_iff_eq.1 hclose, hm⟩)
        · cases h
      · cases h
    · rename_i hopen hclosing
      cases h
      exact .inl ⟨by simp_all [Kind.isBracket], rfl⟩
  · rename_i hmark
    cases h
    refine .inl ⟨?_, rfl⟩
    unfold Kind.isBracket
    split
    · rename_i m hm
      exact absurd hm (hmark m)
    · rfl

/-- The end of the input comes once. -/
theorem Scanned.ended (h : Scanned context atMargin pos text tokens) :
    ∃ inner, kinds tokens = inner ++ [.endOfInput] ∧ .endOfInput ∉ inner := by
  induction h with
  | finish indented inside last =>
    rw [(finish_spec last).2, ← List.append_assoc]
    refine ⟨_, rfl, ?_⟩
    split <;> simp [List.mem_replicate]
  | line indented starts blocks after ih =>
    obtain ⟨inner, hinner, hmem⟩ := ih
    rw [kinds_append, hinner, ← List.append_assoc]
    refine ⟨_, rfl, ?_⟩
    rcases layout_spec blocks with ⟨hopened, -⟩ | ⟨closed, -, hopened⟩ <;>
      simp [hopened, hmem, List.mem_replicate]
  | lineEnd closed after ih =>
    obtain ⟨inner, hinner, hmem⟩ := ih
    exact ⟨.newline :: inner, by rw [kinds_cons, hinner, List.cons_append], by simp [hmem]⟩
  | token kind read matched after ih =>
    obtain ⟨inner, hinner, hmem⟩ := ih
    refine ⟨kind :: inner, by rw [kinds_cons, hinner, List.cons_append], ?_⟩
    have hkind : kind ≠ .endOfInput := by
      rintro rfl
      cases (lexeme_spec read).1
    simp [hkind.symm, hmem]
  | emptyLine _ _ _ _ _ ih | blank _ _ ih | joined _ ih | comment _ _ _ ih | innerLineEnd _ _ ih =>
    exact ih

/-- Behind `n` open blocks, kinds of tokens end no more blocks than are open, and all of them. -/
def EndsBlocks (n : Nat) (ks : List Kind) : Prop :=
  (∀ front, front <+: ks → front.count .dedent ≤ front.count .indent + n) ∧
    ks.count .dedent = ks.count .indent + n

theorem EndsBlocks.plain (hk : k ≠ .indent ∧ k ≠ .dedent) (h : EndsBlocks n ks) :
    EndsBlocks n (k :: ks) := by
  refine ⟨fun front hfront => ?_, by simpa [List.count_cons, hk] using h.2⟩
  rcases List.prefix_cons_iff.1 hfront with rfl | ⟨front, rfl, hrest⟩
  · simp
  · simpa [List.count_cons, hk] using h.1 front hrest

theorem EndsBlocks.indent (h : EndsBlocks (n + 1) ks) : EndsBlocks n (.indent :: ks) := by
  refine ⟨fun front hfront => ?_, ?_⟩
  · rcases List.prefix_cons_iff.1 hfront with rfl | ⟨front, rfl, hrest⟩
    · simp
    · have := h.1 front hrest
      simp only [List.count_cons, beq_self_eq_true, if_true, reduceCtorEq, beq_iff_eq, if_false]
      omega
  · have := h.2
    simp only [List.count_cons, beq_self_eq_true, if_true, reduceCtorEq, beq_iff_eq, if_false]
    omega

theorem EndsBlocks.dedents (m : Nat) (h : EndsBlocks n ks) :
    EndsBlocks (m + n) (List.replicate m .dedent ++ ks) := by
  induction m with
  | zero => simpa using h
  | succ m ih =>
    rw [List.replicate_succ, List.cons_append]
    refine ⟨fun front hfront => ?_, ?_⟩
    · rcases List.prefix_cons_iff.1 hfront with rfl | ⟨front, rfl, hrest⟩
      · simp
      · have := ih.1 front hrest
        simp only [List.count_cons, beq_self_eq_true, if_true, reduceCtorEq, beq_iff_eq, if_false]
        omega
    · have := ih.2
      simp only [List.count_cons, beq_self_eq_true, if_true, reduceCtorEq, beq_iff_eq, if_false]
      omega

/-- The open blocks are those that are still to be ended. -/
theorem Scanned.endsBlocks (h : Scanned context atMargin pos text tokens) :
    EndsBlocks context.indents.length (kinds tokens) := by
  induction h with
  | @finish context atMargin pos margin tokens indented inside last =>
    have hend : EndsBlocks context.indents.length
        (List.replicate context.indents.length .dedent ++ [.endOfInput]) :=
      .dedents (n := 0) _ (.plain (by simp) ⟨fun front hfront => by simp_all, rfl⟩)
    rw [(finish_spec last).2]
    split
    · exact .plain (by simp) hend
    · exact hend
  | line indented starts blocks after ih =>
    rw [kinds_append]
    rcases layout_spec blocks with ⟨hopened, rfl⟩ | ⟨closed, hindents, hopened⟩
    · rw [hopened]
      exact .indent ih
    · rw [hopened, hindents, List.length_append]
      exact .dedents _ ih
  | lineEnd closed after ih => exact .plain (by simp) ih
  | token kind read matched after ih =>
    refine .plain ⟨?_, ?_⟩ ih <;> rintro rfl <;> cases (lexeme_spec read).1
  | emptyLine _ _ _ _ _ ih | blank _ _ ih | joined _ ih | comment _ _ _ ih | innerLineEnd _ _ ih =>
    exact ih

/-- Behind some open brackets, kinds of tokens close them one after the other without layout before
the last of them. -/
inductive Closes : List Token → List Kind → Prop
  | all {ks : List Kind} (h : Nested ks) : Closes [] ks
  | one {t : Token} {o c : Mark} {outer : List Token} {inner rest : List Kind}
      (ho : t.kind = .mark o) (hc : o.closing? = some c)
      (hlayout : ∀ k ∈ inner, k.isLayout = false) (hinner : Nested inner) (h : Closes outer rest) :
      Closes (t :: outer) (inner ++ .mark c :: rest)

theorem Closes.plain (hk : k.isBracket = false) (hlayout : k.isLayout = false)
    (h : Closes brackets ks) : Closes brackets (k :: ks) := by
  cases h with
  | all h => exact .all (.plain hk h)
  | @one t o c outer inner rest ho hc hinside hinner h =>
    have hinside : ∀ l ∈ k :: inner, l.isLayout = false := by simpa [hlayout] using hinside
    exact .one ho hc hinside (.plain hk hinner) h

theorem Closes.layout (hk : k.isBracket = false) (h : Closes [] ks) : Closes [] (k :: ks) := by
  cases h with
  | all h => exact .all (.plain hk h)

theorem Closes.dedents (m : Nat) (h : Closes [] ks) :
    Closes [] (List.replicate m .dedent ++ ks) := by
  induction m with
  | zero => exact h
  | succ m ih => exact .layout rfl ih

theorem Closes.opening {o : Mark} (ho : t.kind = .mark o)
    (h : Closes (t :: brackets) ks) : Closes brackets (.mark o :: ks) := by
  cases h with
  | @one t o' c' outer inner rest ho' hc' hinside hinner h =>
    obtain rfl : o = o' := Kind.mark.inj (ho.symm.trans ho')
    cases h with
    | all h => exact .all (.pair hc' hinside hinner h)
    | @one t₂ o₂ c₂ outer inner₂ rest ho₂ hc₂ hinside₂ hinner₂ h =>
      have hnested : Nested (.mark o :: (inner ++ .mark c' :: inner₂)) :=
        .pair hc' hinside hinner hinner₂
      have hlayout : ∀ k ∈ Kind.mark o :: (inner ++ .mark c' :: inner₂), k.isLayout = false := by
        intro k hk
        simp only [List.mem_cons, List.mem_append] at hk
        rcases hk with rfl | hk | rfl | hk
        · rfl
        · exact hinside k hk
        · rfl
        · exact hinside₂ k hk
      simpa using Closes.one ho₂ hc₂ hlayout hnested h

theorem Closes.closing {o c : Mark} (ho : t.kind = .mark o) (hc : o.closing? = some c)
    (h : Closes outer ks) : Closes (t :: outer) (.mark c :: ks) := by
  have hclosed : Closes (t :: outer) ([] ++ .mark c :: ks) := .one ho hc (by simp) .nil h
  exact hclosed

/-- The open brackets are those that are still to be closed; none is open at a margin. -/
theorem Scanned.closes (h : Scanned context atMargin pos text tokens)
    (hmargin : atMargin = true → context.brackets = []) :
    Closes context.brackets (kinds tokens) := by
  induction h with
  | @finish context atMargin pos margin tokens indented inside last =>
    have hend : Closes [] (List.replicate context.indents.length .dedent ++ [.endOfInput]) :=
      .dedents _ (.layout rfl (.all .nil))
    obtain ⟨hbrackets, hkinds⟩ := finish_spec last
    rw [hbrackets, hkinds]
    split
    · exact .layout rfl hend
    · exact hend
  | line indented starts blocks after ih =>
    have ih := ih (by simp)
    rw [hmargin rfl] at ih ⊢
    rw [kinds_append]
    rcases layout_spec blocks with ⟨hopened, -⟩ | ⟨closed, -, hopened⟩
    · rw [hopened]
      exact .layout rfl ih
    · rw [hopened]
      exact .dedents _ ih
  | lineEnd closed after ih =>
    rw [closed]
    exact .layout rfl (ih fun _ => rfl)
  | token kind read matched after ih =>
    have ih := ih (by simp)
    rcases matchBracket_spec matched with ⟨hk, rfl⟩ | ⟨o, c, hk, hc, rfl⟩ |
      ⟨opening, o, c, hbrackets, ho, hc, hk⟩
    · exact .plain hk (lexeme_spec read).1 ih
    · obtain rfl : kind = .mark o := hk
      exact .opening rfl ih
    · obtain rfl : kind = .mark c := hk
      rw [hbrackets]
      exact .closing ho hc ih
  | emptyLine _ _ _ _ _ ih => exact ih hmargin
  | blank _ _ ih | joined _ ih | comment _ _ _ ih | innerLineEnd _ _ ih => exact ih (by simp)

/-- Which kinds may stand behind which: blocks start behind line ends, they end there or behind the end
of another block, and no layout but a line end stands behind other tokens. -/
def MayFollow (a b : Kind) : Prop :=
  (b = .indent → a = .newline) ∧ (b = .dedent → a = .newline ∨ a = .dedent) ∧
    (a.isLayout = false → b.isLayout = true → b = .newline)

theorem mayFollow_dedents (hk : k = .newline ∨ k = .dedent) (m : Nat)
    (h : ∀ a, a = .newline ∨ a = .dedent → (m = 0 → a = k) → (a :: ks).IsChain MayFollow) :
    (k :: (List.replicate m .dedent ++ ks)).IsChain MayFollow := by
  induction m generalizing k with
  | zero => exact h k hk fun _ => rfl
  | succ m ih =>
    refine .cons_cons ⟨by simp, fun _ => hk, ?_⟩ (ih (.inr rfl) fun a ha _ => h a ha (by simp))
    rcases hk with rfl | rfl <;> simp [Kind.isLayout]

theorem Scanned.mayFollow (h : Scanned context atMargin pos text tokens)
    (hmargin : atMargin = true → context.unended = false)
    (hk : context.unended = false → k = .newline) : (k :: kinds tokens).IsChain MayFollow := by
  have newline : ∀ {k ks}, (Kind.newline :: ks).IsChain MayFollow →
      (k :: .newline :: ks).IsChain MayFollow :=
    .cons_cons ⟨by simp, by simp, by simp⟩
  induction h generalizing k with
  | @finish context atMargin pos margin tokens indented inside last =>
    have hend : ∀ k, k = .newline ∨ k = .dedent →
        (k :: (List.replicate context.indents.length .dedent ++ [.endOfInput])).IsChain MayFollow :=
      fun k hk => mayFollow_dedents hk _ fun a ha _ =>
        .cons_cons ⟨by simp, by simp, by rcases ha with rfl | rfl <;> simp [Kind.isLayout]⟩
          (.singleton _)
    rw [(finish_spec last).2]
    cases hended : context.unended with
    | false => exact hend k (.inl (hk hended))
    | true => exact newline (hend _ (.inl rfl))
  | @line context pos margin c rest opened indents tokens indented starts blocks after ih =>
    obtain rfl := hk (hmargin rfl)
    rw [kinds_append]
    rcases layout_spec blocks with ⟨hopened, rfl⟩ | ⟨closed, hindents, hopened⟩
    · rw [hopened]
      refine .cons_cons ⟨by simp, by simp, by simp [Kind.isLayout]⟩ (ih (by simp) fun hended => ?_)
      cases opened with
      | nil => cases hopened
      | cons t opened => simp at hended
    · rw [hopened]
      refine mayFollow_dedents (.inl rfl) _ fun a _ hm => ih (by simp) fun hended => hm ?_
      have hnone : opened = [] := by simp_all
      simpa [hnone, kinds] using (congrArg List.length hopened).symm
  | lineEnd closed after ih => exact newline (ih (fun _ => rfl) fun _ => rfl)
  | token kind read matched after ih =>
    have hlayout := (lexeme_spec read).1
    refine .cons_cons ⟨?_, ?_, by simp [hlayout]⟩ (ih (by simp) (by simp)) <;> rintro rfl <;> cases hlayout
  | emptyLine _ _ _ _ _ ih => exact ih hmargin hk
  | blank _ _ ih | joined _ ih | comment _ _ _ ih | innerLineEnd _ _ ih => exact ih (by simp) hk

end Lexer

/-- The tokens of every text are well laid out. -/
theorem tokenize_wellLaid {text : List Char} {tokens : List Token}
    (h : tokenize text = .ok tokens) : WellLaid (kinds tokens) := by
  have hscanned := Lexer.Scanned.of_scan h
  have hblocks := hscanned.endsBlocks
  have hchain : (Kind.newline :: kinds tokens).IsChain Lexer.MayFollow :=
    hscanned.mayFollow (fun _ => rfl) fun _ => rfl
  -- What stands before a kind, the start of the text counted as a line end.
  have hbefore : ∀ front k rest, kinds tokens = front ++ k :: rest →
      Lexer.MayFollow (front.getLast?.getD .newline) k := by
    intro front k rest hkinds
    rw [hkinds, ← List.cons_append] at hchain
    exact (List.isChain_append.1 hchain).2.2 _ List.getLast?_cons k rfl
  refine ⟨hscanned.ended, hblocks.1, hblocks.2, ?_, ?_, ?_, ?_⟩
  · cases hscanned.closes fun _ => rfl with
    | all h => exact h
  · intro front rest hkinds
    have hlast := (hbefore _ _ _ hkinds).1 rfl
    cases hfront : front.getLast? with
    | none => exact .inl (List.getLast?_eq_none_iff.1 hfront)
    | some a => exact .inr (by simpa [hfront] using hlast)
  · intro front rest hkinds
    have hlast := (hbefore _ _ _ hkinds).2.1 rfl
    cases hfront : front.getLast? with
    | none =>
      -- The first token ends no block, since none has started.
      obtain rfl := List.getLast?_eq_none_iff.1 hfront
      have := hblocks.1 [.dedent] ⟨rest, hkinds.symm⟩
      simp [Lexer.Context.start] at this
    | some a => simpa [hfront] using hlast
  · intro front k rest hkinds hk hrest
    obtain ⟨inner, hinner, -⟩ := hscanned.ended
    cases rest with
    | nil =>
      have hlast := hkinds.symm.trans hinner
      obtain rfl : k = .endOfInput := by simpa using (List.append_inj' hlast rfl).2
      cases hk
    | cons b rest =>
      have hnext := (hbefore (front ++ [k]) b rest (by simpa using hkinds)).2.2
      obtain rfl : b = .newline := hnext (by simpa using hk) (hrest b List.mem_cons_self)
      exact ⟨[], rest, rfl, by simp⟩

/-- A line end in brackets is none, and the end of the text ends the last line and its block. -/
theorem bracketsInBlock_wellLaid :
    tokenize "if x:\n  (y\n)".toList = .ok [⟨.word .if_, 0, ['i', 'f']⟩, ⟨.identifier, 3, ['x']⟩,
        ⟨.mark .colon, 4, [':']⟩, ⟨.newline, 5, ['\n']⟩, ⟨.indent, 8, []⟩,
        ⟨.mark .parenOpen, 8, ['(']⟩, ⟨.identifier, 9, ['y']⟩, ⟨.mark .parenClose, 11, [')']⟩,
        ⟨.newline, 12, []⟩, ⟨.dedent, 12, []⟩, ⟨.endOfInput, 12, []⟩] ∧
      WellLaid [.word .if_, .identifier, .mark .colon, .newline, .indent, .mark .parenOpen,
        .identifier, .mark .parenClose, .newline, .dedent, .endOfInput] := by
  have h : tokenize "if x:\n  (y\n)".toList = .ok [⟨.word .if_, 0, ['i', 'f']⟩,
      ⟨.identifier, 3, ['x']⟩, ⟨.mark .colon, 4, [':']⟩, ⟨.newline, 5, ['\n']⟩, ⟨.indent, 8, []⟩,
      ⟨.mark .parenOpen, 8, ['(']⟩, ⟨.identifier, 9, ['y']⟩, ⟨.mark .parenClose, 11, [')']⟩,
      ⟨.newline, 12, []⟩, ⟨.dedent, 12, []⟩, ⟨.endOfInput, 12, []⟩] := by decide +kernel
  exact ⟨h, tokenize_wellLaid h⟩

end Hoist.Surface
