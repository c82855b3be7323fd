import Hoist.Proofs.Surface.AlikeTrees
import Hoist.Proofs.Surface.JoinedLines
import Hoist.Proofs.Surface.PlacedTrees

/-!
# Line ends with carriage returns

A text whose lines end with a carriage return and a newline reads like the text with newlines alone, as
far as no two of its lines are joined by a backslash: that works right before a newline only, and what
is joined in the one text is refused in the other.
-/

namespace Hoist.Surface

variable {text text' : List Char} {tokens tokens' : List Token}

/-- A text with carriage returns before its line ends has the tokens of the text without, unless they
do not survive there. -/
theorem tokenize_crlf (hreturn : '\r' ∉ text) :
    Recasts 0 text (tokenize text) (tokenize (Text.crlf text)) :=
  Lexer.scan_crlf hreturn (fun _ => rfl) ⟨rfl, rfl, rfl⟩ 0

/-- Texts with the same tokens hold the same module, up to places. -/
theorem readModule_agree (h : tokenize text = .ok tokens) (h' : tokenize text' = .ok tokens')
    (same : tokens.map Token.form = tokens'.map Token.form) :
    Agree (fun m => m.body.map Stmt.unplaced) (readModule text) (readModule text') := by
  have hread := readStatements_alike (.ofTokens tokens) (.ofTokens tokens') same
  rw [← readFront_eq readStatements h, ← readFront_eq readStatements h'] at hread
  refine hread.bind ?_
  rintro ⟨body, c⟩ ⟨body', c'⟩ hp
  exact .results (Prod.ext_iff.1 hp).1

/-- Tokens whose strings hold no line ends are the same in the text with carriage returns. -/
theorem recast_eq_form (h : ∀ t ∈ tokens, t.kind = .string → '\n' ∉ t.text) :
    tokens.map Token.recast = tokens.map Token.form := by
  refine List.map_congr_left fun t ht => ?_
  unfold Token.recast Token.form
  split
  · rename_i hk
    rw [Text.crlf_of_not_mem (h t ht hk)]
  · rfl

/-- Of tokens whose strings hold no line ends, the text with carriage returns has the same, as far as no
lines are joined. -/
theorem survives_iff (h : ∀ t ∈ tokens, t.kind = .string → '\n' ∉ t.text) :
    Survives 0 text tokens ↔ unjoined 0 text (visible tokens) = true := by
  refine ⟨fun hs => hs.unjoined, fun hu => ⟨hu, fun t ht => ?_⟩⟩
  unfold breaks
  by_cases hk : t.kind = .string
  · simp [h t ht hk]
  · simp [hk]

/-- Whether no lines of a text are joined by a backslash: none before, between and behind its tokens. -/
def joinsNone (text : List Char) : Bool :=
  match tokenize text with
  | .ok tokens => unjoined 0 text (visible tokens)
  | .error _ => true

/-- Where no string holds a line end and no lines are joined, a text with carriage returns before its
line ends is accepted if and only if the text without is, with tokens of the same kinds and texts, and
holds the same statements up to their places. A text whose lines are joined is refused with them. -/
theorem crlf_reads_alike (text : List Char) (hreturn : '\r' ∉ text)
    (hstrings : ∀ tokens, tokenize text = .ok tokens →
      ∀ t ∈ tokens, t.kind = .string → '\n' ∉ t.text) :
    (joinsNone text = true →
      (∀ forms,
        (∃ tokens', tokenize (Text.crlf text) = .ok tokens' ∧ tokens'.map Token.form = forms) ↔
        ∃ tokens, tokenize text = .ok tokens ∧ tokens.map Token.form = forms) ∧
      ∀ body, (∃ m', readModule (Text.crlf text) = .ok m' ∧ m'.body.map Stmt.unplaced = body) ↔
        ∃ m, readModule text = .ok m ∧ m.body.map Stmt.unplaced = body) ∧
    (joinsNone text = false → ∃ f, tokenize (Text.crlf text) = .error f) := by
  have hrecasts := tokenize_crlf hreturn
  have hagree {tokens tokens' : List Token} (h : tokenize text = .ok tokens)
      (h' : tokenize (Text.crlf text) = .ok tokens') := readModule_agree h h'
  have hrefused {f : Fault} (h : tokenize text = .error f) := readModule_of_error h
  have hrefused' {f : Fault} (h : tokenize (Text.crlf text) = .error f) := readModule_of_error h
  unfold joinsNone
  generalize tokenize text = x at hrecasts hagree hrefused hstrings ⊢
  generalize tokenize (Text.crlf text) = x' at hrecasts hagree hrefused' ⊢
  cases hrecasts with
  | refused => simp [hrefused rfl, hrefused' rfl]
  | @broken tokens f' h =>
    rw [survives_iff (hstrings tokens rfl)] at h
    exact ⟨fun hjoined => absurd hjoined h, fun _ => ⟨f', rfl⟩⟩
  | @recast tokens tokens' hs same =>
    rw [recast_eq_form (hstrings tokens rfl)] at same
    have hunjoined := hs.unjoined
    refine ⟨fun _ => ⟨fun forms => ?_, fun body => (hagree rfl rfl same).ok_iff⟩, fun hjoined => ?_⟩
    · simp [same]
    · simp [hunjoined] at hjoined

/-- A block with a comment, an empty line and an open bracket at a line end. -/
theorem commentedBlock_reads_alike :
    '\r' ∉ "if x:\n # y\n\n f(\n)".toList ∧
      (∀ tokens, tokenize "if x:\n # y\n\n f(\n)".toList = .ok tokens →
        ∀ t ∈ tokens, t.kind = .string → '\n' ∉ t.text) ∧
      joinsNone "if x:\n # y\n\n f(\n)".toList = true ∧
      ∃ tokens', tokenize (Text.crlf "if x:\n # y\n\n f(\n)".toList) = .ok tokens' ∧
        tokens'.map Token.form = [(.word .if_, ['i', 'f']), (.identifier, ['x']), (.mark .colon, [':']),
          (.newline, ['\n']), (.indent, []), (.identifier, ['f']), (.mark .parenOpen, ['(']),
          (.mark .parenClose, [')']), (.newline, []), (.dedent, []), (.endOfInput, [])] := by
  have hread : tokenize "if x:\n # y\n\n f(\n)".toList = .ok [⟨.word .if_, 0, ['i', 'f']⟩,
      ⟨.identifier, 3, ['x']⟩, ⟨.mark .colon, 4, [':']⟩, ⟨.newline, 5, ['\n']⟩, ⟨.indent, 13, []⟩,
      ⟨.identifier, 13, ['f']⟩, ⟨.mark .parenOpen, 14, ['(']⟩, ⟨.mark .parenClose, 16, [')']⟩,
      ⟨.newline, 17, []⟩, ⟨.dedent, 17, []⟩, ⟨.endOfInput, 17, []⟩] := by decide +kernel
  have hreturn : '\r' ∉ "if x:\n # y\n\n f(\n)".toList := by decide
  have hstrings : ∀ tokens, tokenize "if x:\n # y\n\n f(\n)".toList = .ok tokens →
      ∀ t ∈ tokens, t.kind = .string → '\n' ∉ t.text := by
    rw [hread]
    rintro _ ⟨⟩
    decide
  have hjoins : joinsNone "if x:\n # y\n\n f(\n)".toList = true := by
    rw [joinsNone, hread]
    decide
  exact ⟨hreturn, hstrings, hjoins,
    (((crlf_reads_alike _ hreturn hstrings).1 hjoins).1 _).2 ⟨_, hread, rfl⟩⟩

/-- Two joined lines are read with newlines alone, and refused with carriage returns. -/
theorem joinedLine_refused :
    '\r' ∉ "x = 1 + \\\n2\n".toList ∧
      tokenize "x = 1 + \\\n2\n".toList = .ok [⟨.identifier, 0, ['x']⟩, ⟨.mark .equal, 2, ['=']⟩,
        ⟨.number, 4, ['1']⟩, ⟨.mark .plus, 6, ['+']⟩, ⟨.number, 10, ['2']⟩, ⟨.newline, 11, ['\n']⟩,
        ⟨.endOfInput, 12, []⟩] ∧
      tokenize (Text.crlf "x = 1 + \\\n2\n".toList) = .error ⟨.strayCharacter, 8, ['\\']⟩ := by
  exact ⟨by decide, by decide +kernel, by decide +kernel⟩

end Hoist.Surface
