import Hoist.Proofs.Surface.JoinedLines
import Hoist.Proofs.Surface.Outline
import Hoist.Proofs.Surface.Relexed
import Hoist.Proofs.Surface.Reread

/-!
# Pieces of a text between parentheses

A piece of a text that starts and stops with tokens is cut into the same tokens again when it stands
alone between parentheses. Inside them a line end is a blank, so it does not matter how the lines of the
text were laid out.
-/

namespace Hoist.Surface

namespace Lexer

variable {context : Context} {atMargin : Bool} {pos pos' i : Nat} {text piece rest : List Char}
  {c : Char} {t : Token} {s s' before after core tokens : List Token} {m : Mark}

/-- Where a token is cut off that is no layout. -/
theorem Scanned.at_token (h : Scanned context atMargin pos text (before ++ t :: after))
    (ht : t.kind.isLayout = false) : ∃ front rest context', text = front ++ rest ∧
      t.start = pos + front.length ∧ Scanned context' false t.start rest (t :: after) := by
  -- what is left out in front of the token, or cut off before it
  have hbehind (front : List Char) {text : List Char} {pos : Nat}
      (h : ∃ front' rest context', text = front' ++ rest ∧ t.start = pos + front.length + front'.length ∧
        Scanned context' false t.start rest (t :: after)) :
      ∃ front' rest context', front ++ text = front' ++ rest ∧ t.start = pos + front'.length ∧
        Scanned context' false t.start rest (t :: after) := by
    obtain ⟨front', rest, context', rfl, hstart, hscanned⟩ := h
    refine ⟨front ++ front', rest, context', by rw [List.append_assoc], ?_, hscanned⟩
    rw [hstart, List.length_append, Nat.add_assoc]
  have hnot {tokens : List Token} (hlayout : visible tokens = []) : t ∉ tokens := fun hmem =>
    absurd (List.filter_eq_nil_iff.1 hlayout t hmem) (by simp [ht])
  obtain ⟨tokens, htokens⟩ : ∃ tokens, before ++ t :: after = tokens := ⟨_, rfl⟩
  rw [htokens] at h
  induction h generalizing before with
  | finish _ _ last =>
    exact absurd (htokens ▸ List.mem_append_right _ List.mem_cons_self) (hnot (visible_finish last))
  | emptyLine _ _ _ _ _ ih => exact hbehind _ (ih htokens)
  | @line context pos margin c rest opened indents tokens _ _ blocks _ ih =>
    refine hbehind _ ?_
    rcases List.append_eq_append_iff.1 htokens with ⟨x, hopened, hrest⟩ | ⟨x, rfl, hrest⟩
    · cases x with
      | nil => exact ih (show [] ++ t :: after = _ from hrest)
      | cons u x =>
        obtain ⟨rfl, -⟩ := List.cons.inj hrest
        exact absurd (by rw [hopened]; simp) (hnot (visible_layout blocks))
    · exact ih hrest.symm
  | @blank context pos c rest tokens _ _ ih => exact hbehind [c] (ih htokens)
  | joined _ ih => exact hbehind ['\\', '\n'] (ih htokens)
  | @comment context pos body rest tokens _ _ _ ih =>
    refine hbehind ('#' :: body) ?_
    rw [List.length_cons, Nat.add_comm body.length, ← Nat.add_assoc]
    exact ih htokens
  | lineEnd _ _ ih =>
    cases before with
    | nil =>
      obtain ⟨rfl, -⟩ := List.cons.inj htokens
      cases ht
    | cons u before => exact hbehind ['\n'] (ih (List.cons.inj htokens).2)
  | innerLineEnd _ _ ih => exact hbehind ['\n'] (ih htokens)
  | @token context pos c cs rest brackets tokens kind read matched h ih =>
    cases before with
    | nil =>
      obtain ⟨rfl, rfl⟩ := List.cons.inj htokens
      exact ⟨[], _, context, rfl, rfl, .token kind read matched h⟩
    | cons u before => exact hbehind _ (ih (List.cons.inj htokens).2)

/-- Wherever a text stands in brackets in front of a closing parenthesis, it is cut into tokens with the
same texts as some others. -/
def Recut (text : List Char) (core : List Token) : Prop :=
  ∀ pos, ∃ core' : List Token, core'.map Token.form = core.map Token.form ∧
    ∀ {indents brackets brackets' outer rest tokens}, outer ≠ [] →
      core'.foldlM matchBracket brackets = .ok brackets' →
      Scanned ⟨indents, brackets' ++ outer, true⟩ false (pos + text.length) (')' :: rest) tokens →
      Scanned ⟨indents, brackets ++ outer, true⟩ false pos (text ++ ')' :: rest) (core' ++ tokens)

theorem Recut.nil : Recut [] [] := fun _ => ⟨[], rfl, fun _ hmatch hafter => by
  obtain rfl := Except.ok.inj hmatch
  exact hafter⟩

/-- A token is cut off again in front of others. -/
theorem Recut.token {cs : List Char} {kind : Kind}
    (read : lexeme pos c (cs ++ (text ++ rest)) = .ok (kind, (c :: cs).length)) (h : Recut text core) :
    Recut (c :: cs ++ text) (⟨kind, pos, c :: cs⟩ :: core) := by
  intro pos'
  obtain ⟨core', hforms, hscanned⟩ := h (pos' + (c :: cs).length)
  refine ⟨⟨kind, pos', c :: cs⟩ :: core', by simp [hforms, Token.form],
    fun {_ _ _ outer rest' _} houter hmatch hafter => ?_⟩
  obtain ⟨next, hnext, hmatch⟩ := bind_eq_ok.1 hmatch
  have hread : lexeme pos' c (cs ++ (text ++ ')' :: rest')) = .ok (kind, (c :: cs).length) :=
    lexeme_reclosed ⟨text, rest, rest', rfl, rfl⟩ read
  rw [List.append_assoc]
  refine .token kind hread (matchBracket_frame outer hnext) (hscanned houter hmatch ?_)
  rwa [List.length_append, ← Nat.add_assoc] at hafter

/-- A text starts with some tokens, which are cut off again elsewhere up to the end of the last one. -/
def CutAgain (pos : Nat) (text : List Char) (core : List Token) : Prop :=
  ∃ piece rest, text = piece ++ rest ∧ piece ≠ [] ∧
    (∀ u ∈ core.getLast?, u.stop = pos + piece.length) ∧ Recut piece core

/-- In front of the tokens there may stand what is left out. -/
theorem CutAgain.behind (front : List Char) (h : CutAgain (pos + front.length) text core)
    (hfront : ∀ {context pos piece rest tokens}, context.brackets ≠ [] → piece ≠ [] → piece <+: text →
      Scanned context false (pos + front.length) (piece ++ ')' :: rest) tokens →
        Scanned context false pos (front ++ (piece ++ ')' :: rest)) tokens) :
    CutAgain pos (front ++ text) core := by
  obtain ⟨piece, rest, rfl, hne, hstop, hrecut⟩ := h
  refine ⟨front ++ piece, rest, by rw [List.append_assoc], by simp [hne], fun u hu => ?_, fun pos' => ?_⟩
  · rw [hstop u hu, List.length_append, Nat.add_assoc]
  obtain ⟨core', hforms, hscanned⟩ := hrecut (pos' + front.length)
  refine ⟨core', hforms, fun houter hmatch hafter => ?_⟩
  rw [List.append_assoc]
  refine hfront (by simp [houter]) hne (List.prefix_append _ _) (hscanned houter hmatch ?_)
  rwa [List.length_append, ← Nat.add_assoc] at hafter

/-- Tokens that are no layout are cut off again up to the end of the last one. -/
theorem Scanned.cutAgain (h : Scanned context false pos text (core ++ after)) (hne : core ≠ [])
    (hvisible : ∀ u ∈ core, u.kind.isLayout = false) : CutAgain pos text core := by
  obtain ⟨t, core, rfl⟩ := List.exists_cons_of_ne_nil hne
  have ht := hvisible t List.mem_cons_self
  obtain ⟨inner, hinner⟩ : ∃ inner, false = inner := ⟨_, rfl⟩
  obtain ⟨tokens, htokens⟩ : ∃ tokens, t :: core ++ after = tokens := ⟨_, rfl⟩
  rw [hinner, htokens] at h
  induction h generalizing t core with
  | finish _ _ last =>
    have hmem : t ∈ t :: core ++ after := List.mem_cons_self
    rw [htokens] at hmem
    exact absurd (List.filter_eq_nil_iff.1 (visible_finish last) t hmem) (by simp [ht])
  | emptyLine | line => cases hinner
  | @blank context pos c rest tokens separates _ ih =>
    exact (ih t core hne hvisible ht hinner htokens).behind [c] fun _ _ _ => .blank separates
  | joined _ ih =>
    exact (ih t core hne hvisible ht hinner htokens).behind ['\\', '\n'] fun _ _ _ => .joined
  | @comment context pos body rest tokens inLine ended _ ih =>
    refine CutAgain.behind ('#' :: body) ?_ fun _ hpiece hfront h => ?_
    · rw [List.length_cons, Nat.add_comm body.length, ← Nat.add_assoc]
      exact ih t core hne hvisible ht hinner htokens
    · rw [List.length_cons, Nat.add_comm body.length, ← Nat.add_assoc] at h
      obtain ⟨d, piece, rfl⟩ := List.exists_cons_of_ne_nil hpiece
      obtain ⟨rest, rfl⟩ := hfront
      exact .comment inLine ended h
  | lineEnd =>
    obtain ⟨rfl, -⟩ := List.cons.inj htokens
    cases ht
  | innerLineEnd _ _ ih =>
    exact (ih t core hne hvisible ht hinner htokens).behind ['\n']
      fun hinside _ _ => .innerLineEnd hinside
  | @token context pos c cs rest brackets tokens kind read matched _ ih =>
    obtain ⟨rfl, hrest⟩ := List.cons.inj htokens
    cases core with
    | nil =>
      have hstop : ∀ u ∈ [(⟨kind, pos, c :: cs⟩ : Token)].getLast?, u.stop = pos + (c :: cs).length := by
        rintro _ ⟨⟩
        rfl
      exact ⟨c :: cs, rest, rfl, by simp, hstop, by simpa using Recut.nil.token read⟩
    | cons u core =>
      obtain ⟨piece, rest, rfl, -, hstop, hrecut⟩ := ih u core (by simp)
        (fun v hv => hvisible v (List.mem_cons_of_mem _ hv)) (hvisible u (by simp)) rfl hrest
      refine ⟨c :: cs ++ piece, rest, by rw [List.append_assoc], by simp, fun v hv => ?_,
        hrecut.token read⟩
      rw [hstop v hv, List.length_append, Nat.add_assoc]

/-! Parentheses around a piece. -/

/-- The tokens of a mark of one character that stands several times in a row. -/
def repeated (m : Mark) (c : Char) (pos i : Nat) : List Token :=
  (List.range' pos i).map fun n => ⟨.mark m, n, [c]⟩

theorem lexemes_repeated (hm : m.spelling.toList = [c]) (pos i : Nat) :
    lexemes (repeated m c pos i) = List.replicate i (.mark m) := by
  rw [List.eq_replicate_iff]
  refine ⟨by simp [repeated], fun x hx => ?_⟩
  obtain ⟨t, ht, rfl⟩ := List.mem_map.1 hx
  obtain ⟨n, -, rfl⟩ := List.mem_map.1 ht
  simp [Token.lexeme, Lexeme.mark, Kind.isLayout, hm]

theorem lexeme_parenOpen (pos : Nat) (rest : List Char) :
    lexeme pos '(' rest = .ok (.mark .parenOpen, 1) := rfl

theorem lexeme_parenClose (pos : Nat) (rest : List Char) :
    lexeme pos ')' rest = .ok (.mark .parenClose, 1) := rfl

theorem Scanned.repeated {indents : List Nat} {brackets brackets' : List Token}
    (read : ∀ pos rest, lexeme pos c rest = .ok (.mark m, 1))
    (matched : (repeated m c pos i).foldlM matchBracket brackets = .ok brackets')
    (after : Scanned ⟨indents, brackets', true⟩ false (pos + i) text tokens) :
    Scanned ⟨indents, brackets, true⟩ false pos (List.replicate i c ++ text)
      (repeated m c pos i ++ tokens) := by
  induction i generalizing pos brackets with
  | zero =>
    obtain rfl := Except.ok.inj matched
    exact after
  | succ i ih =>
    obtain ⟨next, hnext, matched⟩ := bind_eq_ok.1 matched
    rw [Nat.add_comm i, ← Nat.add_assoc] at after
    have hlength : lexeme pos c ([] ++ (List.replicate i c ++ text)) = .ok (.mark m, [c].length) :=
      read pos _
    exact .token (.mark m) hlength hnext (ih matched after)

/-- The brackets that tokens leave open do not depend on where the tokens stand. -/
theorem foldlM_agree {brackets brackets' : List Token}
    (h : brackets.map (·.kind) = brackets'.map (·.kind)) (hs : kinds s = kinds s') :
    Agree (List.map (·.kind)) (s.foldlM matchBracket brackets) (s'.foldlM matchBracket brackets') := by
  induction s generalizing s' brackets brackets' with
  | nil =>
    obtain rfl := List.map_eq_nil_iff.1 hs.symm
    exact .results h
  | cons t s ih =>
    obtain ⟨t', s', rfl, ht, hrest⟩ := List.map_eq_cons_iff.1 hs.symm
    exact (matchBracket_agree h ht.symm).bind fun _ _ hnext => ih hnext hrest.symm

theorem balanced_congr (h : Balanced s) (hs : kinds s = kinds s') : Balanced s' := by
  rw [balanced_iff] at h ⊢
  have hagree : Agree (List.map (·.kind)) (s.foldlM matchBracket []) (s'.foldlM matchBracket []) :=
    foldlM_agree rfl hs
  rw [h] at hagree
  generalize s'.foldlM matchBracket [] = x at hagree ⊢
  cases hagree with
  | results h => rw [List.map_eq_nil_iff.1 h.symm]

/-- The tokens at the end of a text that ends with a closing parenthesis. -/
def lastTokens (pos : Nat) : List Token :=
  [⟨.mark .parenClose, pos, [')']⟩, ⟨.newline, pos + 1, []⟩, ⟨.endOfInput, pos + 1, []⟩]

theorem scanned_lastTokens (ht : t.kind = .mark .parenOpen) (pos : Nat) :
    Scanned ⟨[], [t], true⟩ false pos ([')'] ++ []) (lastTokens pos) :=
  .token (.mark .parenClose) (lexeme_parenClose pos []) (matchBracket_closing ht rfl rfl [])
    (.finish (by simp) (fun _ => rfl) rfl)

/-- The tokens of a text that stands in parentheses which its own brackets match with. -/
theorem Recut.enclosed (h : Recut piece core) (i j : Nat) :
    ∃ core' : List Token, core'.map Token.form = core.map Token.form ∧ ∀ s,
      s = repeated .parenOpen '(' 1 i ++ (core' ++ repeated .parenClose ')' (1 + i + piece.length) j) →
      Balanced s → tokenize (List.replicate (i + 1) '(' ++ (piece ++ List.replicate (j + 1) ')')) =
        .ok (⟨.mark .parenOpen, 0, ['(']⟩ :: (s ++ lastTokens (1 + i + piece.length + j))) := by
  obtain ⟨core', hforms, hscanned⟩ := h (1 + i)
  refine ⟨core', hforms, ?_⟩
  rintro _ rfl hbalanced
  have hs := hbalanced []
  rw [List.foldlM_append] at hs
  obtain ⟨outside, hopens, hs⟩ := bind_eq_ok.1 hs
  rw [List.foldlM_append] at hs
  obtain ⟨inside, hcore, hcloses⟩ := bind_eq_ok.1 hs
  -- the first parenthesis is open all the way, so no line ends before the last one
  obtain ⟨p, hp⟩ : ∃ p : Token, ⟨.mark .parenOpen, 0, ['(']⟩ = p := ⟨_, rfl⟩
  have hclosed := Scanned.repeated lexeme_parenClose (foldlM_frame [p] hcloses)
    (scanned_lastTokens (by rw [← hp]) (1 + i + piece.length + j))
  rw [List.append_nil, ← List.replicate_succ', List.replicate_succ] at hclosed
  have hopened := Scanned.repeated lexeme_parenOpen (foldlM_frame [p] hopens)
    (hscanned (by simp) hcore hclosed)
  rw [← List.replicate_succ] at hopened
  have hfirst : Scanned .start false 0 (['('] ++ _) (⟨.mark .parenOpen, 0, ['(']⟩ :: _) :=
    .token (.mark .parenOpen) (lexeme_parenOpen _ _) (matchBracket_opening rfl rfl []) (hp ▸ hopened)
  have hline : Scanned .start true 0 ([] ++ '(' :: _) ([] ++ _) := .line (by simp) (by decide) rfl hfirst
  rw [tokenize, List.replicate_succ, List.append_assoc, List.append_assoc]
  exact hline.scan_eq

end Lexer

/-- The tokens of a text that some of its tokens start with are cut off again from the piece of the text
between the start of the first one and the end of the last one. -/
theorem tokenize_recut {text : List Char} {tokens core : List Token} {a b : Nat}
    (h : tokenize text = .ok tokens) (hcore : core <:+: tokens)
    (hvisible : ∀ t ∈ core, t.kind.isLayout = false) (hstart : StartsAt core a) (hstop : StopsAt core b) :
    Lexer.Recut (piece text a b) core := by
  obtain ⟨before, after, rfl⟩ := hcore
  obtain ⟨t, ht, hk, rfl⟩ := hstart
  obtain ⟨core, rfl⟩ := List.head?_eq_some_iff.1 ht
  obtain ⟨init, u, last, hsplit, -, hlast, rfl⟩ := hstop
  obtain rfl : last = [] := by
    refine List.eq_nil_iff_forall_not_mem.2 fun v hv => ?_
    have := hvisible v (by simp [hsplit, hv])
    rw [hlast v hv] at this
    cases this
  rw [List.append_assoc] at h
  obtain ⟨front, rest, context, rfl, hplace, hscanned⟩ := (Lexer.Scanned.of_scan h).at_token hk
  have hcut : Lexer.CutAgain t.start rest (t :: core) := hscanned.cutAgain (by simp) hvisible
  obtain ⟨whole, rest, rfl, -, hend, hrecut⟩ := hcut
  have hpiece : piece (front ++ (whole ++ rest)) t.start u.stop = whole := by
    rw [hend u (by simp [hsplit]), hplace, Nat.zero_add, piece, ← List.append_assoc, ← List.length_append,
      List.take_left, List.drop_left]
  rwa [hpiece]

/-- A piece of a text is cut into its tokens again between parentheses that its brackets match with. -/
theorem tokenize_enclosed {piece : List Char} {core front back : List Token} (h : Lexer.Recut piece core)
    (hfront : ∀ t ∈ front, t.lexeme = .mark .parenOpen) (hback : ∀ t ∈ back, t.lexeme = .mark .parenClose)
    (hbalanced : Balanced (front ++ (core ++ back))) : ∃ tokens,
      tokenize (List.replicate (front.length + 1) '(' ++ (piece ++ List.replicate (back.length + 1) ')')) =
        .ok tokens ∧
      lexemes tokens = wrapped (lexemes (front ++ (core ++ back))) ++
        [.layout .newline, .layout .endOfInput] := by
  obtain ⟨core', hforms, htokens⟩ := h.enclosed front.length back.length
  obtain ⟨s, hs⟩ : ∃ s, s = Lexer.repeated .parenOpen '(' 1 front.length ++ (core' ++
    Lexer.repeated .parenClose ')' (1 + front.length + piece.length) back.length) := ⟨_, rfl⟩
  have hopens : lexemes front = List.replicate front.length (.mark .parenOpen) :=
    List.eq_replicate_iff.2 ⟨by simp, by simpa [lexemes] using hfront⟩
  have hcloses : lexemes back = List.replicate back.length (.mark .parenClose) :=
    List.eq_replicate_iff.2 ⟨by simp, by simpa [lexemes] using hback⟩
  have hsame : lexemes s = lexemes (front ++ (core ++ back)) := by
    rw [hs, lexemes_append, lexemes_append, lexemes_append, lexemes_append, hopens, hcloses,
      lexemes_eq_of_forms hforms, Lexer.lexemes_repeated rfl, Lexer.lexemes_repeated rfl]
  have hkinds : kinds (front ++ (core ++ back)) = kinds s := by
    rw [kinds_eq_map_lexeme, kinds_eq_map_lexeme]
    exact congrArg (List.map (·.kind)) hsame.symm
  refine ⟨_, htokens s hs (Lexer.balanced_congr hbalanced hkinds), ?_⟩
  rw [lexemes_cons, lexemes_append, hsame]
  simp [Lexer.lastTokens, wrapped, lexemes, Token.lexeme, Lexeme.mark, Lexeme.layout, Kind.isLayout,
    Mark.spelling]

end Hoist.Surface
