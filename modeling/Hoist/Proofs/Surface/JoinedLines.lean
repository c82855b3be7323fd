import Hoist.Proofs.Surface.Alike
import Hoist.Proofs.Surface.CarriageReturns

/-!
# Joined lines

A text with a carriage return before each line end is cut like the text without, unless a backslash
joins two of its lines, or a string between single quotes goes on behind a line end. The two runs of the
lexer are followed side by side: after the same tokens they stand before texts that differ in the
carriage returns only.
-/

namespace Hoist.Surface

/-- Whether a backslash joins two lines in a text of blanks, line ends, comments and joined lines.
`inComment` tells that the text starts inside a comment. -/
def joinsLines : Bool → List Char → Bool
  | _, [] => false
  | true, c :: rest => joinsLines (c != '\n') rest
  | false, c :: rest => (c == '\\' && rest.head? == some '\n') || joinsLines (c == '#') rest

/-- Whether no lines are joined before, between and behind some tokens of a text from an offset on. -/
def unjoined : Nat → List Char → List Token → Bool
  | _, text, [] => !joinsLines false text
  | pos, text, t :: tokens =>
    !joinsLines false (text.take (t.start - pos)) &&
      unjoined t.stop (text.drop (t.stop - pos)) tokens

/-- A token as it stands in the text with carriage returns: strings hold their line ends. -/
def Token.recast (t : Token) : Kind × List Char :=
  (t.kind, if t.kind = .string then Text.crlf t.text else t.text)

/-- Tokens that are found again in the text with carriage returns. -/
structure Survives (pos : Nat) (text : List Char) (tokens : List Token) : Prop where
  unjoined : unjoined pos text (visible tokens) = true
  whole : ∀ t ∈ tokens, breaks t.kind t.text = false

/-- The tokens of a text from an offset on, and those of the text with carriage returns: both are
refused, or the tokens are the same, unless they do not survive. -/
inductive Recasts (pos : Nat) (text : List Char) :
    Except Fault (List Token) → Except Fault (List Token) → Prop
  | refused {f f'} : Recasts pos text (.error f) (.error f')
  | broken {tokens f'} (h : ¬Survives pos text tokens) : Recasts pos text (.ok tokens) (.error f')
  | recast {tokens tokens'} (h : Survives pos text tokens)
      (same : tokens.map Token.recast = tokens'.map Token.form) :
      Recasts pos text (.ok tokens) (.ok tokens')

variable {pos : Nat} {text front gap : List Char} {tokens : List Token} {t : Token}
  {x x' : Except Fault (List Token)} {f' : Fault}

/-- Characters that start no comment and are no backslash join no lines. -/
theorem joinsLines_append (h : ∀ c ∈ front, c ≠ '\\' ∧ c ≠ '#') (gap : List Char) :
    joinsLines false (front ++ gap) = joinsLines false gap := by
  induction front with
  | nil => rfl
  | cons c front ih =>
    obtain ⟨⟨hbackslash, hcomment⟩, hfront⟩ := List.forall_mem_cons.1 h
    simp [joinsLines, hbackslash, beq_false_of_ne hcomment, ih hfront]

/-- A comment joins no lines. -/
theorem joinsLines_comment {body : List Char} (hbody : '\n' ∉ body)
    (hgap : ∀ c ∈ gap.head?, c = '\n') :
    joinsLines false ('#' :: (body ++ gap)) = joinsLines false gap := by
  have hinside : joinsLines true (body ++ gap) = joinsLines false gap := by
    induction body with
    | nil =>
      cases gap with
      | nil => rfl
      | cons c gap =>
        obtain rfl := hgap c rfl
        rfl
    | cons c body ih =>
      rw [List.mem_cons, not_or] at hbody
      have hc : (c != '\n') = true := by simpa using Ne.symm hbody.1
      rw [List.cons_append, joinsLines, hc, ih hbody.2]
  simp [joinsLines, hinside]

/-- What joins no lines can be left out before the first token. -/
theorem unjoined_append
    (hfront : ∀ gap, gap <+: text → joinsLines false (front ++ gap) = joinsLines false gap)
    (hlate : ∀ t ∈ tokens, pos + front.length ≤ t.start) :
    unjoined pos (front ++ text) tokens = unjoined (pos + front.length) text tokens := by
  cases tokens with
  | nil => rw [unjoined, unjoined, hfront text (List.prefix_refl text)]
  | cons t tokens =>
    have hstart := hlate t List.mem_cons_self
    have htake : t.start - pos = front.length + (t.start - (pos + front.length)) := by omega
    have hdrop : t.stop - pos = front.length + (t.stop - (pos + front.length)) := by
      unfold Token.stop
      omega
    rw [unjoined, unjoined, htake, hdrop, List.take_length_add_append, List.drop_length_add_append,
      hfront _ (List.take_prefix _ _)]

theorem Survives.append_iff
    (hfront : ∀ gap, gap <+: text → joinsLines false (front ++ gap) = joinsLines false gap)
    (hlate : ∀ t ∈ visible tokens, pos + front.length ≤ t.start) :
    Survives pos (front ++ text) tokens ↔ Survives (pos + front.length) text tokens := by
  have hunjoined := unjoined_append hfront hlate
  exact ⟨fun h => ⟨hunjoined ▸ h.unjoined, h.whole⟩, fun h => ⟨hunjoined ▸ h.unjoined, h.whole⟩⟩

namespace Recasts

/-- What joins no lines leaves no trace in either text. -/
theorem skip (front : List Char)
    (hfront : ∀ gap, gap <+: text → joinsLines false (front ++ gap) = joinsLines false gap)
    (hlate : ∀ tokens, x = .ok tokens → ∀ t ∈ visible tokens, pos + front.length ≤ t.start)
    (h : Recasts (pos + front.length) text x x') : Recasts pos (front ++ text) x x' := by
  cases h with
  | refused => exact .refused
  | broken h => exact .broken fun hs => h ((Survives.append_iff hfront (hlate _ rfl)).1 hs)
  | recast h same => exact .recast ((Survives.append_iff hfront (hlate _ rfl)).2 h) same

/-- Lines that are joined are not joined in the text with carriage returns. -/
theorem joined (hlate : ∀ tokens, x = .ok tokens → ∀ t ∈ visible tokens, pos + 2 ≤ t.start) :
    Recasts pos ('\\' :: '\n' :: text) x (.error f') := by
  cases x with
  | error f => exact .refused
  | ok tokens =>
    refine .broken fun h => ?_
    have hjoins (gap : List Char) : joinsLines false ('\\' :: '\n' :: gap) = true := rfl
    have hunjoined := h.unjoined
    cases hvisible : visible tokens with
    | nil => simp [hvisible, unjoined, hjoins] at hunjoined
    | cons t rest =>
      have hstart := hlate tokens rfl t (by simp [hvisible])
      obtain ⟨n, hn⟩ : ∃ n, t.start - pos = n + 2 := ⟨t.start - pos - 2, by omega⟩
      simp [hvisible, unjoined, hn, hjoins] at hunjoined

theorem isLayout_of_visible (h : visible tokens = []) : ∀ t ∈ tokens, t.kind.isLayout = true := by
  simpa [visible, List.filter_eq_nil_iff] using h

theorem breaks_of_layout (h : t.kind.isLayout = true) : breaks t.kind t.text = false := by
  unfold breaks
  cases hk : t.kind <;> simp_all [Kind.isLayout]

/-- Layout is found again as it is. -/
theorem recast_of_layout (h : t.kind.isLayout = true) : t.recast = t.form := by
  have hk : t.kind ≠ .string := fun hk => by simp [hk, Kind.isLayout] at h
  rw [Token.recast, if_neg hk, Token.form]

theorem bind {β γ : Type} {view : β → γ} {y y' : Except Fault β}
    {f g : β → Except Fault (List Token)} (hy : Agree view y y')
    (hf : ∀ b b', view b = view b' → Recasts pos text (f b) (g b')) :
    Recasts pos text (y >>= f) (y' >>= g) := by
  cases hy with
  | faults => exact .refused
  | results h => exact hf _ _ h

/-- Layout tokens before the other tokens of a text. -/
theorem layout {opened opened' : List Token} (hopened : visible opened = [])
    (hsame : opened.map Token.form = opened'.map Token.form) (h : Recasts pos text x x') :
    Recasts pos text (do return opened ++ (← x)) (do return opened' ++ (← x')) := by
  have hlayout := isLayout_of_visible hopened
  have hvisible (tokens : List Token) : visible (opened ++ tokens) = visible tokens := by
    rw [visible_append, hopened, List.nil_append]
  cases h with
  | refused => exact .refused
  | broken h =>
    refine .broken fun hs => h ⟨hvisible _ ▸ hs.unjoined, fun t ht => ?_⟩
    exact hs.whole t (List.mem_append_right _ ht)
  | recast h same =>
    refine .recast ⟨(hvisible _).symm ▸ h.unjoined, fun t ht => ?_⟩ ?_
    · rcases List.mem_append.1 ht with ht | ht
      · exact breaks_of_layout (hlayout t ht)
      · exact h.whole t ht
    · rw [List.map_append, List.map_append, same, ← hsame,
        List.map_congr_left fun t ht => recast_of_layout (hlayout t ht)]

/-- A token at the front of a text. -/
theorem token {t' : Token} {rest : List Char} (hlayout : t.kind.isLayout = false) (hstart : t.start = pos)
    (hwhole : breaks t.kind t.text = false) (hsame : t.recast = t'.form)
    (h : Recasts t.stop rest x x') :
    Recasts pos (t.text ++ rest) (do let tokens ← x; return t :: tokens)
      (do let tokens ← x'; return t' :: tokens) := by
  have hunjoined (tokens : List Token) : unjoined pos (t.text ++ rest) (visible (t :: tokens)) =
      unjoined t.stop rest (visible tokens) := by
    have hstop : t.stop - pos = t.text.length := by
      unfold Token.stop
      omega
    rw [visible_cons hlayout, unjoined, hstart, Nat.sub_self, hstop, List.drop_left]
    rfl
  cases h with
  | refused => exact .refused
  | broken h =>
    exact .broken fun hs => h ⟨hunjoined _ ▸ hs.unjoined, (List.forall_mem_cons.1 hs.whole).2⟩
  | recast h same =>
    refine .recast ⟨(hunjoined _).symm ▸ h.unjoined, List.forall_mem_cons.2 ⟨hwhole, h.whole⟩⟩ ?_
    rw [List.map_cons, List.map_cons, hsame, same]

/-- A string that carriage returns break. -/
theorem brokenString (h : breaks t.kind t.text = true) :
    Recasts pos text (do let tokens ← x; return t :: tokens) (.error f') := by
  cases x with
  | error f => exact .refused
  | ok tokens =>
    refine .broken fun hs => ?_
    rw [hs.whole t List.mem_cons_self] at h
    cases h

end Recasts

namespace Lexer

/-- Two places of texts behind tokens of the same kinds. -/
structure Context.Alike (context context' : Context) : Prop where
  indents : context.indents = context'.indents
  brackets : context.brackets.map (·.kind) = context'.brackets.map (·.kind)
  unended : context.unended = context'.unended

variable {context context' : Context} {atMargin : Bool} {pos' : Nat} {c : Char}

theorem Context.Alike.isEmpty_brackets (h : context.Alike context') :
    context'.brackets.isEmpty = context.brackets.isEmpty := by
  rw [← List.isEmpty_map (f := Token.kind), ← h.brackets, List.isEmpty_map]

theorem finish_agree (h : context.Alike context') (pos pos' : Nat) :
    Agree (List.map Token.form) (finish context pos) (finish context' pos') := by
  obtain ⟨indents, brackets, unended⟩ := context
  obtain ⟨indents', brackets', unended'⟩ := context'
  obtain ⟨rfl : indents = indents', hbrackets, rfl : unended = unended'⟩ := h
  cases brackets with
  | nil =>
    obtain rfl := List.map_eq_nil_iff.1 hbrackets.symm
    refine .results ?_
    cases unended <;> simp [Token.form]
  | cons b brackets =>
    obtain ⟨b', brackets', rfl, -⟩ := List.map_eq_cons_iff.1 hbrackets.symm
    exact .faults

theorem layout_agree (indents : List Nat) (width pos pos' : Nat) (rest rest' : List Char) :
    Agree (Prod.map (List.map Token.form) id) (layout indents width pos rest)
      (layout indents width pos' rest') := by
  unfold layout
  split
  · exact .results rfl
  · dsimp only
    split
    · exact .results (by simp [Token.form])
    · exact .faults

theorem matchBracket_agree {brackets brackets' : List Token} {t' : Token}
    (h : brackets.map (·.kind) = brackets'.map (·.kind)) (ht : t.kind = t'.kind) :
    Agree (List.map (·.kind)) (matchBracket brackets t) (matchBracket brackets' t') := by
  unfold matchBracket
  rw [← ht]
  split
  · refine .ite (.results (by simp [h, ht])) (.ite ?_ (.results h))
    cases brackets with
    | nil =>
      obtain rfl := List.map_eq_nil_iff.1 h.symm
      exact .faults
    | cons b outer =>
      obtain ⟨⟨kind, start, text⟩, outer', rfl, hb, houter⟩ := List.map_eq_cons_iff.1 h.symm
      obtain ⟨kind, start, text⟩ := b
      obtain rfl := hb
      cases kind with
      | mark o => exact .ite (.results houter.symm) .faults
      | _ => exact .faults
  · exact .results h

theorem finish_recasts (h : context.Alike context') (hjoins : joinsLines false text = false)
    (start start' : Nat) : Recasts pos text (finish context start) (finish context' start') := by
  have hagree := finish_agree h start start'
  have hvisible {tokens : List Token} (ht : finish context start = .ok tokens) := visible_finish ht
  generalize finish context start = x at hagree hvisible ⊢
  generalize finish context' start' = x' at hagree ⊢
  cases hagree with
  | faults => exact .refused
  | results same =>
    have hlayout := Recasts.isLayout_of_visible (hvisible rfl)
    refine .recast ⟨?_, fun t ht => Recasts.breaks_of_layout (hlayout t ht)⟩ ?_
    · rw [hvisible rfl, unjoined, hjoins]
      rfl
    · rw [← same, List.map_congr_left fun t ht => Recasts.recast_of_layout (hlayout t ht)]

/-! What the lexer does at each place of a text, as equations. -/

theorem margin_split {cs : List Char} (h : text.dropWhile Text.isIndent = c :: cs) :
    text = text.takeWhile Text.isIndent ++ c :: cs ∧
      (∀ d ∈ text.takeWhile Text.isIndent, Text.isIndent d = true) ∧ Text.isIndent c = false := by
  refine ⟨?_, fun d hd => List.mem_takeWhile_imp hd, ?_⟩
  · rw [← h, List.takeWhile_append_dropWhile]
  · have := List.head_dropWhile_not Text.isIndent (l := text) (by simp [h])
    simpa [h] using this

theorem scan_blank (hc : Text.isBlank c = true) (rest : List Char) :
    scan context false pos (c :: rest) = scan context false (pos + 1) rest := by
  rw [scan, if_pos hc]

theorem scan_joined (rest : List Char) :
    scan context false pos ('\\' :: '\n' :: rest) = scan context false (pos + 2) rest := by
  rw [scan]
  rfl

theorem scan_comment (rest : List Char) : scan context false pos ('#' :: rest) =
    scan context false (pos + 1 + (rest.length - (rest.dropWhile (· != '\n')).length))
      (rest.dropWhile (· != '\n')) := by
  conv_lhs => rw [scan, if_neg (by decide), if_neg (by simp), if_pos (by simp)]

theorem scan_lineEnd (rest : List Char) : scan context false pos ('\n' :: rest) =
    if context.brackets.isEmpty then do
      let tokens ← scan ⟨context.indents, [], false⟩ true (pos + 1) rest
      return ⟨.newline, pos, ['\n']⟩ :: tokens
    else scan context false (pos + 1) rest := by
  conv_lhs => rw [scan, if_neg (by decide), if_neg (by simp), if_neg (by decide), if_pos (by simp)]

theorem scan_stray {rest : List Char} {f : Fault} (hc : Text.isBlank c = false ∧ c ≠ '#' ∧ c ≠ '\n')
    (hjoined : ¬(c = '\\' ∧ rest.head? = some '\n')) (h : lexeme pos c rest = .error f) :
    scan context false pos (c :: rest) = .error f := by
  rw [scan, if_neg (by simp [hc.1]), if_neg (by simpa using hjoined), if_neg (by simp [hc.2.1]),
    if_neg (by simp [hc.2.2]), h]
  rfl

theorem scan_token {cs back : List Char} {kind : Kind}
    (h : lexeme pos c (cs ++ back) = .ok (kind, (c :: cs).length)) :
    scan context false pos (c :: cs ++ back) = do
      let brackets ← matchBracket context.brackets ⟨kind, pos, c :: cs⟩
      let tokens ← scan ⟨context.indents, brackets, true⟩ false (pos + (c :: cs).length) back
      return ⟨kind, pos, c :: cs⟩ :: tokens := by
  obtain ⟨hblank, hline, hcomment, hjoined⟩ := lexeme_starts h
  have htake : (c :: (cs ++ back)).take (c :: cs).length = c :: cs := List.take_left
  have hdrop : (cs ++ back).drop ((c :: cs).length - 1) = back := List.drop_left
  conv_lhs => rw [List.cons_append, scan, if_neg (by simp [hblank]), if_neg (by simp [hjoined]),
    if_neg (by simpa using hcomment), if_neg (by simpa using hline), h]
  show (do
    let brackets ← matchBracket context.brackets ⟨kind, pos, (c :: (cs ++ back)).take (c :: cs).length⟩
    let tokens ← scan ⟨context.indents, brackets, true⟩ false (pos + (c :: cs).length)
      ((cs ++ back).drop ((c :: cs).length - 1))
    return (⟨kind, pos, (c :: (cs ++ back)).take (c :: cs).length⟩ : Token) :: tokens) = _
  rw [htake, hdrop]

/-- The tokens of a text start in it. -/
theorem scan_late (hmargin : atMargin = true → context.brackets = []) :
    ∀ tokens, scan context atMargin pos text = .ok tokens → ∀ t ∈ visible tokens, pos ≤ t.start :=
  fun _ h => ((Scanned.of_scan h).laid hmargin).le_start

/-- A margin holds no line end and joins no lines. -/
theorem margin_plain {margin : List Char} (h : ∀ d ∈ margin, Text.isIndent d = true) :
    '\n' ∉ margin ∧ ∀ gap, joinsLines false (margin ++ gap) = joinsLines false gap := by
  constructor
  · intro hline
    cases h _ hline
  · refine joinsLines_append fun d hd => ?_
    have hindent := h d hd
    constructor <;> rintro rfl <;> cases hindent

/-- The line end behind a comment is reached with and without a carriage return. -/
theorem scan_comment_crlf (rest : List Char) : ∃ p, scan context false pos (Text.crlf ('#' :: rest)) =
    scan context false p (Text.crlf (rest.dropWhile (· != '\n'))) := by
  have hfirst := List.head?_dropWhile_not (· != '\n') rest
  rw [Text.crlf_cons (by decide), scan_comment, Text.dropLine_crlf]
  cases hnext : rest.dropWhile (· != '\n') with
  | nil => exact ⟨_, rfl⟩
  | cons d next =>
    obtain rfl : d = '\n' := by
      rw [hnext] at hfirst
      simpa using hfirst
    rw [Text.crlf_newline, Nat.add_right_comm]
    exact ⟨_, (scan_blank rfl _).symm⟩

/-- A line that is left out is left out with its carriage return. -/
theorem scan_emptyLine_crlf {margin : List Char} (indented : ∀ d ∈ margin, Text.isIndent d = true)
    (hc : c = '\n' ∨ c = '#') (rest : List Char) :
    ∃ p, scan context true pos (Text.crlf (margin ++ c :: rest)) =
      scan context true p (Text.crlf (Text.afterLine (c :: rest))) := by
  obtain ⟨d, rest', hd, hrest, hindent⟩ : ∃ d rest', (d == '\n' || d == '\r' || d == '#') = true ∧
      Text.crlf (c :: rest) = d :: rest' ∧ Text.isIndent d = false := by
    rcases hc with rfl | rfl
    · exact ⟨'\r', _, rfl, Text.crlf_newline rest, rfl⟩
    · exact ⟨'#', _, rfl, Text.crlf_cons (by decide) rest, rfl⟩
  rw [Text.crlf_append, Text.crlf_of_not_mem (margin_plain indented).1, ← Text.afterLine_crlf, hrest,
    scan_margin_cons indented hindent, if_pos hd]
  exact ⟨_, rfl⟩

/-- What is left out of a line from its first character on joins no lines. -/
theorem emptyLine_split (hc : c = '\n' ∨ c = '#') (rest : List Char) : ∃ front,
    c :: rest = front ++ Text.afterLine (c :: rest) ∧
      ∀ gap, gap <+: Text.afterLine (c :: rest) →
        joinsLines false (front ++ gap) = joinsLines false gap := by
  rcases hc with rfl | rfl
  · exact ⟨['\n'], rfl, fun gap _ => joinsLines_append (by simp) gap⟩
  · obtain ⟨ending, hsplit, hended⟩ := afterLine_split rest
    have hnext : Text.afterLine ('#' :: rest) = Text.afterLine rest := rfl
    refine ⟨'#' :: (Text.line rest ++ ending), ?_, fun gap hgap => ?_⟩
    · rw [hnext, List.cons_append, ← hsplit]
    rw [List.cons_append, List.append_assoc]
    rcases hended with rfl | ⟨rfl, hnil⟩
    · rw [joinsLines_comment (not_mem_line rest) (by rintro d ⟨⟩; rfl)]
      exact joinsLines_append (by simp) gap
    · rw [hnext, hnil] at hgap
      rw [List.prefix_nil.1 hgap]
      exact joinsLines_comment (not_mem_line rest) (by simp)

/-- A comment joins no lines with what stands behind it. -/
theorem comment_split (rest : List Char) :
    '#' :: rest = '#' :: Text.line rest ++ rest.dropWhile (· != '\n') ∧
      ∀ gap, gap <+: rest.dropWhile (· != '\n') →
        joinsLines false ('#' :: Text.line rest ++ gap) = joinsLines false gap := by
  refine ⟨?_, fun gap hgap => joinsLines_comment (not_mem_line rest) fun d hd => ?_⟩
  · rw [List.cons_append, Text.line, List.takeWhile_append_dropWhile]
  · obtain ⟨back, hback⟩ := hgap
    have hfirst := List.head?_dropWhile_not (· != '\n') rest
    rw [← hback, List.head?_append, Option.mem_def.1 hd] at hfirst
    simpa using hfirst

/-- The two runs of the lexer at a token. -/
theorem token_crlf {rest : List Char} (hc : Text.isBlank c = false ∧ c ≠ '#' ∧ c ≠ '\n')
    (hjoined : ¬(c = '\\' ∧ rest.head? = some '\n')) (halike : context.Alike context')
    (after : ∀ cs back brackets brackets', rest = cs ++ back →
      brackets.map (·.kind) = brackets'.map (·.kind) → ∀ p, Recasts (pos + (c :: cs).length) back
        (scan ⟨context.indents, brackets, true⟩ false (pos + (c :: cs).length) back)
        (scan ⟨context'.indents, brackets', true⟩ false p (Text.crlf back))) :
    Recasts pos (c :: rest) (scan context false pos (c :: rest))
      (scan context' false pos' (Text.crlf (c :: rest))) := by
  have hreturn : c ≠ '\r' := by
    rintro rfl
    cases hc.1
  have hjoined' : ¬(c = '\\' ∧ (Text.crlf rest).head? = some '\n') :=
    fun h => Text.head_crlf_ne_newline rest h.2
  have hcut := lexeme_crlf ⟨hreturn, hc.2.2⟩ rest pos pos'
  rw [Text.crlf_cons hc.2.2]
  generalize hy : lexeme pos c rest = y at hcut
  generalize hy' : lexeme pos' c (Text.crlf rest) = y' at hcut
  cases hcut with
  | refused =>
    rw [scan_stray hc hjoined hy, scan_stray hc hjoined' hy']
    exact .refused
  | @broken kind front back f' split h =>
    obtain ⟨d, cs, rfl⟩ := List.exists_cons_of_length_pos (lexeme_spec hy).2.1
    obtain ⟨rfl, rfl⟩ : c = d ∧ rest = cs ++ back := List.cons.inj split
    rw [scan_stray hc hjoined' hy', ← List.cons_append, scan_token hy]
    cases matchBracket context.brackets ⟨kind, pos, c :: cs⟩ with
    | error f => exact .refused
    | ok brackets => exact .brokenString h
  | @cut kind front back split whole plain =>
    obtain ⟨hlayout, hpos, -⟩ := lexeme_spec hy
    obtain ⟨d, cs, rfl⟩ := List.exists_cons_of_length_pos hpos
    obtain ⟨rfl, rfl⟩ : c = d ∧ rest = cs ++ back := List.cons.inj split
    rw [Text.crlf_append, Text.crlf_cons hc.2.2] at hy'
    rw [Text.crlf_append, ← List.cons_append, ← List.cons_append, scan_token hy, scan_token hy']
    refine .bind (matchBracket_agree halike.brackets rfl) fun brackets brackets' hbrackets => ?_
    refine .token (t := ⟨kind, pos, c :: cs⟩) hlayout rfl whole ?_ (after cs back _ _ rfl hbrackets _)
    rcases plain with rfl | hplain
    · rw [← Text.crlf_cons hc.2.2]
      rfl
    · rw [← Text.crlf_cons hc.2.2, Text.crlf_of_not_mem hplain]
      simp [Token.recast, Token.form, Text.crlf_of_not_mem hplain]

/-- The two runs of the lexer at a margin. -/
theorem margin_crlf {margin rest : List Char} (indented : ∀ d ∈ margin, Text.isIndent d = true)
    (hindent : Text.isIndent c = false) (hc : ¬(c == '\n' || c == '\r' || c == '#') = true)
    (halike : context.Alike context')
    (after : ∀ (opened : List Token) indents p, Recasts (pos + margin.length) (c :: rest)
      (scan ⟨indents, context.brackets, context.unended || !opened.isEmpty⟩ false
        (pos + margin.length) (c :: rest))
      (scan ⟨indents, context'.brackets, context'.unended || !opened.isEmpty⟩ false p
        (Text.crlf (c :: rest)))) :
    Recasts pos (margin ++ c :: rest) (scan context true pos (margin ++ c :: rest))
      (scan context' true pos' (Text.crlf (margin ++ c :: rest))) := by
  obtain ⟨hline, hjoins⟩ := margin_plain indented
  have hc' : c ≠ '\n' := by
    rintro rfl
    simp at hc
  rw [Text.crlf_append, Text.crlf_of_not_mem hline, Text.crlf_cons hc',
    scan_margin_cons indented hindent, scan_margin_cons indented hindent, if_neg hc, if_neg hc,
    ← halike.indents]
  have hblocks := layout_agree context.indents (marginWidth margin) (pos + margin.length)
    (pos' + margin.length) (c :: rest) (c :: Text.crlf rest)
  have hvisible {opened : List Token} {indents : List Nat} (h : layout context.indents
      (marginWidth margin) (pos + margin.length) (c :: rest) = .ok (opened, indents)) :=
    visible_layout h
  generalize layout context.indents (marginWidth margin) (pos + margin.length) (c :: rest) = y
    at hblocks hvisible ⊢
  generalize layout context.indents (marginWidth margin) (pos' + margin.length)
    (c :: Text.crlf rest) = y' at hblocks ⊢
  cases hblocks with
  | faults => exact .refused
  | @results a a' hsame =>
    obtain ⟨opened, indents⟩ := a
    obtain ⟨opened', indents'⟩ := a'
    obtain ⟨hforms, rfl : indents = indents'⟩ := Prod.mk.inj hsame
    have hempty : opened.isEmpty = opened'.isEmpty := by
      rw [← List.isEmpty_map (f := Token.form), show opened.map _ = _ from hforms, List.isEmpty_map]
    refine .layout (hvisible rfl) hforms
      (.skip margin (fun gap _ => hjoins gap) (scan_late (by simp)) ?_)
    rw [← Text.crlf_cons hc', ← hempty]
    exact after opened indents _

/-- Two runs of the lexer, the second one over the text with carriage returns. -/
theorem scan_crlf (hreturn : '\r' ∉ text) (hmargin : atMargin = true → context.brackets = [])
    (halike : context.Alike context') (pos' : Nat) :
    Recasts pos text (scan context atMargin pos text) (scan context' atMargin pos' (Text.crlf text)) := by
  induction context, atMargin, pos, text using scan.induct generalizing context' pos' with
  | case1 context pos cs hrest =>
    have indented := List.dropWhile_eq_nil_iff.1 hrest
    obtain ⟨hline, hjoins⟩ := margin_plain indented
    rw [Text.crlf_of_not_mem hline, scan_margin_nil indented, scan_margin_nil indented]
    exact finish_recasts halike (by simpa [joinsLines] using hjoins []) _ _
  | case2 context pos cs margin start c tail hrest hempty next =>
    rename_i ih
    obtain ⟨hcs, indented, hindent⟩ := margin_split hrest
    rw [hcs] at hreturn ⊢
    have hc : c = '\n' ∨ c = '#' := by
      have hc : c ≠ '\r' := by
        rintro rfl
        simp at hreturn
      simpa [hc] using hempty
    obtain ⟨p, hp⟩ : ∃ p, scan context' true pos' (Text.crlf (margin ++ c :: tail)) =
        scan context' true p (Text.crlf next) := scan_emptyLine_crlf indented hc tail
    obtain ⟨front, hsplit, hjoins⟩ := emptyLine_split hc tail
    have htext : margin ++ c :: tail = margin ++ front ++ next := by
      rw [List.append_assoc]
      exact congrArg (margin ++ ·) hsplit
    have hstart : start + (tail.length + 1 - next.length) = pos + (margin ++ front).length := by
      have := congrArg List.length hsplit
      simp only [List.length_cons, List.length_append, start, next] at this ⊢
      omega
    have hnext : '\r' ∉ next := fun h => hreturn (htext ▸ List.mem_append_right _ h)
    have hafter := ih hnext hmargin halike p
    rw [hp, scan_margin_cons indented hindent, if_pos hempty]
    show Recasts pos (margin ++ c :: tail)
      (scan context true (start + (tail.length + 1 - next.length)) next) (scan context' true p _)
    rw [hstart] at hafter ⊢
    rw [htext]
    refine .skip _ (fun gap hgap => ?_) (scan_late hmargin) hafter
    rw [List.append_assoc, (margin_plain indented).2, hjoins gap hgap]
  | case3 context pos cs margin start c tail hrest hc =>
    rename_i ih
    obtain ⟨hcs, indented, hindent⟩ := margin_split hrest
    rw [hcs] at hreturn ⊢
    refine margin_crlf indented hindent hc halike fun opened indents p => ?_
    have hopen : Context.Alike ⟨indents, context.brackets, context.unended || !opened.isEmpty⟩
        ⟨indents, context'.brackets, context'.unended || !opened.isEmpty⟩ :=
      ⟨rfl, halike.brackets, by rw [halike.unended]⟩
    exact ih opened indents (fun h => hreturn (List.mem_append_right _ h)) (by simp) hopen p
  | case4 context pos =>
    rw [Text.crlf_nil, scan, scan]
    exact finish_recasts halike rfl _ _
  | case5 context pos c rest hc ih =>
    rw [List.mem_cons, not_or] at hreturn
    have hline : c ≠ '\n' := by
      rintro rfl
      cases hc
    rw [Text.crlf_cons hline, scan_blank hc, scan_blank hc]
    refine .skip [c] (fun gap _ => joinsLines_append ?_ gap) (scan_late (by simp))
      (ih hreturn.2 (by simp) halike _)
    rintro d hd
    obtain rfl := List.mem_singleton.1 hd
    constructor <;> rintro rfl <;> cases hc
  | case6 context pos c rest hc hjoined ih =>
    simp only [Bool.and_eq_true, beq_iff_eq] at hjoined
    obtain ⟨rfl, hnext⟩ := hjoined
    obtain ⟨rest, rfl⟩ := List.head?_eq_some_iff.1 hnext
    rw [scan_joined, Text.crlf_cons (by decide), Text.crlf_newline,
      scan_stray (by decide) (by simp) (f := ⟨.strayCharacter, pos', ['\\']⟩) rfl]
    exact .joined (scan_late (by simp))
  | case7 context pos c rest hc hjoined hcomment next =>
    rename_i ih
    rw [beq_iff_eq] at hcomment
    subst hcomment
    rw [List.mem_cons, not_or] at hreturn
    obtain ⟨p, hp⟩ : ∃ p, scan context' false pos' (Text.crlf ('#' :: rest)) =
        scan context' false p (Text.crlf next) := scan_comment_crlf rest
    obtain ⟨hsplit, hjoins⟩ := comment_split rest
    have hstart : pos + 1 + (rest.length - next.length) = pos + ('#' :: Text.line rest).length := by
      have := congrArg List.length hsplit
      simp only [List.length_cons, List.length_append, next] at this ⊢
      omega
    have hafter := ih (fun h => hreturn.2 ((List.dropWhile_suffix _).subset h)) (by simp) halike p
    rw [hp, scan_comment, hsplit]
    rw [hstart] at hafter ⊢
    exact .skip _ hjoins (scan_late (by simp)) hafter
  | case8 context pos c rest hc hjoined hcomment hline hclosed ih =>
    rw [beq_iff_eq] at hline
    subst hline
    rw [List.mem_cons, not_or] at hreturn
    have hclosed' := halike.isEmpty_brackets.trans hclosed
    have hopen : Context.Alike ⟨context.indents, [], false⟩ ⟨context'.indents, [], false⟩ :=
      ⟨halike.indents, rfl, rfl⟩
    rw [Text.crlf_newline, scan_lineEnd, scan_blank (c := '\r') rfl, scan_lineEnd, if_pos hclosed,
      if_pos hclosed']
    have hopened : visible [⟨.newline, pos, ['\n']⟩] = [] := rfl
    have hsame : [(⟨.newline, pos, ['\n']⟩ : Token)].map Token.form =
        [(⟨.newline, pos' + 1, ['\n']⟩ : Token)].map Token.form := rfl
    exact .layout hopened hsame (.skip ['\n'] (fun gap _ => joinsLines_append (by simp) gap)
      (scan_late fun _ => rfl) (ih hreturn.2 (fun _ => rfl) hopen _))
  | case9 context pos c rest hc hjoined hcomment hline hclosed ih =>
    rw [beq_iff_eq] at hline
    subst hline
    rw [List.mem_cons, not_or] at hreturn
    have hclosed' : ¬context'.brackets.isEmpty = true := by
      rwa [halike.isEmpty_brackets]
    rw [Text.crlf_newline, scan_lineEnd, scan_blank (c := '\r') rfl, scan_lineEnd, if_neg hclosed,
      if_neg hclosed']
    exact .skip ['\n'] (fun gap _ => joinsLines_append (by simp) gap) (scan_late (by simp))
      (ih hreturn.2 (by simp) halike _)
  | case10 context pos c rest hc hjoined hcomment hline ih =>
    rw [List.mem_cons, not_or] at hreturn
    have hplain : Text.isBlank c = false ∧ c ≠ '#' ∧ c ≠ '\n' := by simp_all
    refine token_crlf hplain (by simpa using hjoined) halike
      fun cs back brackets brackets' hrest hbrackets p => ?_
    have hopen : Context.Alike ⟨context.indents, brackets, true⟩
        ⟨context'.indents, brackets', true⟩ :=
      ⟨halike.indents, hbrackets, rfl⟩
    have hback : rest.drop ((c :: cs).length - 1) = back := by
      rw [hrest]
      exact List.drop_left
    have hafter := ih (c :: cs).length brackets (fun h => hreturn.2 (List.mem_of_mem_drop h)) (by simp)
      hopen p
    rwa [hback] at hafter

end Lexer

end Hoist.Surface
