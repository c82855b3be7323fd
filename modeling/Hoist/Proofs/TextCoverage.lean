import Hoist.Proofs.TokenLayout

/-!
# What the lexer leaves out

Between the tokens of a text stand blanks, line ends, comments and joined lines, and nothing else, with
one exception: outside brackets, a line that starts with a carriage return is left out whole, whatever
it holds.
-/

namespace Hoist.Surface

/-- What may stand before a token or the end of a text, where `rest` follows. `atMargin` tells that only
indentation stands between the start of the line and this place, and `inside` that a bracket is open.
With `dropping`, a line outside brackets may also be left out from a carriage return on. -/
inductive Skipped (dropping inside : Bool) (rest : List Char) : Bool → List Char → Prop
  | nil {atMargin} : Skipped dropping inside rest atMargin []
  | blank {atMargin c gap} (hc : Text.isBlank c = true)
      (h : Skipped dropping inside rest (atMargin && Text.isIndent c) gap) :
      Skipped dropping inside rest atMargin (c :: gap)
  | lineEnd {atMargin gap} (h : Skipped dropping inside rest (!inside) gap) :
      Skipped dropping inside rest atMargin ('\n' :: gap)
  /-- A comment goes on to the end of its line. -/
  | comment {atMargin body gap} (hbody : '\n' ∉ body) (hend : ∀ c ∈ (gap ++ rest).head?, c = '\n')
      (h : Skipped dropping inside rest atMargin gap) :
      Skipped dropping inside rest atMargin ('#' :: (body ++ gap))
  | joined {atMargin gap} (h : Skipped dropping inside rest false gap) :
      Skipped dropping inside rest atMargin ('\\' :: '\n' :: gap)
  /-- What stands behind a carriage return at the margin goes with it. -/
  | dropped {body gap} (hdropping : dropping = true) (hbody : '\n' ∉ body)
      (hend : ∀ c ∈ (gap ++ rest).head?, c = '\n') (h : Skipped dropping inside rest true gap) :
      Skipped dropping inside rest true ('\r' :: (body ++ gap))

/-- How many brackets are open behind a token, with `depth` open before it. -/
def depthBehind (depth : Nat) (t : Token) : Nat :=
  match t.kind with
  | .mark m => if m.closing?.isSome then depth + 1 else if m.isClosing then depth - 1 else depth
  | _ => depth

/-- How many brackets are open behind some tokens. -/
def depthOf (tokens : List Token) : Nat := tokens.foldl depthBehind 0

/-- The end of the last of some tokens, or the start of the text. -/
def lastStop (tokens : List Token) : Nat := (tokens.getLast?.map Token.stop).getD 0

/-- The start of the first of some tokens, or the end of the text. -/
def firstStart (text : List Char) (tokens : List Token) : Nat :=
  (tokens.head?.map Token.start).getD text.length

/-- A piece of a text. -/
def piece (text : List Char) (start stop : Nat) : List Char := (text.take stop).drop start

/-- Tokens cover a text: they are pieces of it that are not empty, in the order of the text, and what
stands before, between and behind them may be skipped. -/
structure Covers (dropping : Bool) (text : List Char) (tokens : List Token) : Prop where
  pieces : ∀ t ∈ tokens, t.text ≠ [] ∧ t.stop ≤ text.length ∧ piece text t.start t.stop = t.text
  ordered : tokens.Pairwise (·.stop ≤ ·.start)
  skipped : ∀ before after, tokens = before ++ after →
    Skipped dropping (depthOf before != 0) (text.drop (firstStart text after))
      before.isEmpty (piece text (lastStop before) (firstStart text after))

/-- The tokens that are no layout. -/
def visible (tokens : List Token) : List Token := tokens.filter fun t => !t.kind.isLayout

/-- Tokens in a text from an offset on, with `depth` open brackets: before each token and behind the
last one stands what may be skipped there. -/
inductive Laid (dropping : Bool) : Nat → Bool → Nat → List Char → List Token → Prop
  | last {depth margined pos gap} (h : Skipped dropping (depth != 0) [] margined gap) :
      Laid dropping depth margined pos gap []
  | token {depth margined pos gap t rest tokens}
      (hgap : Skipped dropping (depth != 0) (t.text ++ rest) margined gap)
      (htext : t.text ≠ []) (hstart : t.start = pos + gap.length)
      (h : Laid dropping (depthBehind depth t) false t.stop rest tokens) :
      Laid dropping depth margined pos (gap ++ (t.text ++ rest)) (t :: tokens)

variable {dropping inside margined margined' : Bool} {depth pos : Nat}
  {text front gap rest margin source : List Char} {tokens : List Token} {t : Token}

namespace Skipped

/-- At the margin no less may be skipped than elsewhere. -/
theorem atMargin (h : Skipped dropping inside rest margined gap) :
    Skipped dropping inside rest true gap := by
  induction h with
  | nil => exact .nil
  | @blank margined c gap hc h ih =>
    refine .blank hc ?_
    cases hi : Text.isIndent c with
    | true => exact ih
    | false => simpa [hi] using h
  | lineEnd h ih => exact .lineEnd h
  | comment hbody hend h ih => exact .comment hbody hend ih
  | joined h ih => exact .joined h
  | dropped hdropping hbody hend h ih => exact .dropped hdropping hbody hend h

/-- Indentation may be skipped and leaves the margin a margin. -/
theorem indented (hm : ∀ c ∈ margin, Text.isIndent c = true)
    (h : Skipped dropping inside rest margined gap) :
    Skipped dropping inside rest margined (margin ++ gap) := by
  induction margin with
  | nil => exact h
  | cons c margin ih =>
    have hc := hm c List.mem_cons_self
    have hblank : Text.isBlank c = true := by
      simp only [Text.isIndent, Text.isBlank, Bool.or_eq_true] at hc ⊢
      tauto
    refine .blank hblank ?_
    rw [hc, Bool.and_true]
    exact ih fun d hd => hm d (List.mem_cons_of_mem _ hd)

end Skipped

namespace Laid

/-- More may be skipped before the first token. -/
theorem skip (front : List Char) (hfront : ∀ {gap rest}, text = gap ++ rest →
      Skipped dropping (depth != 0) rest margined' gap →
      Skipped dropping (depth != 0) rest margined (front ++ gap))
    (h : Laid dropping depth margined' (pos + front.length) text tokens) :
    Laid dropping depth margined pos (front ++ text) tokens := by
  cases h with
  | last h => exact .last (hfront (List.append_nil _).symm h)
  | @token depth margined pos gap t rest tokens hgap htext hstart h =>
    rw [← List.append_assoc]
    refine .token (hfront rfl hgap) htext ?_ h
    rw [hstart, List.length_append, Nat.add_assoc]

theorem atMargin (h : Laid dropping depth margined pos text tokens) :
    Laid dropping depth true pos text tokens := by
  cases h with
  | last h => exact .last h.atMargin
  | token hgap htext hstart h => exact .token hgap.atMargin htext hstart h

/-- The first token starts no earlier than the text, and so do all behind it. -/
theorem le_start (h : Laid dropping depth margined pos text tokens) :
    ∀ t ∈ tokens, pos ≤ t.start := by
  induction h with
  | last h => simp
  | @token depth margined pos gap t rest tokens hgap htext hstart h ih =>
    intro u hu
    rcases List.mem_cons.1 hu with rfl | hu
    · omega
    · have := ih u hu
      simp only [Token.stop] at this
      omega

theorem ordered (h : Laid dropping depth margined pos text tokens) :
    tokens.Pairwise (·.stop ≤ ·.start) := by
  induction h with
  | last h => exact .nil
  | token hgap htext hstart h ih => exact .cons h.le_start ih

theorem pieces (h : Laid dropping depth margined pos text tokens) (hsource : source = front ++ text)
    (hpos : pos = front.length) : ∀ t ∈ tokens, t.text ≠ [] ∧ t.stop ≤ source.length ∧
      piece source t.start t.stop = t.text := by
  induction h generalizing front with
  | last h => simp
  | @token depth margined pos gap t rest tokens hgap htext hstart h ih =>
    have hstop : t.stop = (front ++ gap ++ t.text).length := by
      simp only [Token.stop, List.length_append]
      omega
    have hsplit : source = front ++ gap ++ t.text ++ rest := by
      rw [hsource]
      simp only [List.append_assoc]
    intro u hu
    rcases List.mem_cons.1 hu with rfl | hu
    · refine ⟨htext, ?_, ?_⟩
      · rw [hstop, hsplit]
        exact (List.prefix_append _ rest).length_le
      · rw [piece, hstop, hsplit, List.take_left, hstart, hpos, ← List.length_append, List.drop_left]
    · exact ih hsplit hstop u hu

theorem skipped (h : Laid dropping depth margined pos text tokens) (hsource : source = front ++ text)
    (hpos : pos = front.length) : ∀ before after, tokens = before ++ after →
      Skipped dropping (before.foldl depthBehind depth != 0)
        (source.drop (firstStart source after)) (margined && before.isEmpty)
        (piece source ((before.getLast?.map Token.stop).getD pos) (firstStart source after)) := by
  induction h generalizing front with
  | @last depth margined pos gap h =>
    intro before after hsplit
    obtain ⟨rfl, rfl⟩ := List.append_eq_nil_iff.1 hsplit.symm
    have hend : piece source pos source.length = gap := by
      rw [piece, List.take_length, hsource, hpos, List.drop_left]
    have hrest : source.drop (firstStart source []) = [] := List.drop_length
    rw [hrest]
    simpa [firstStart, hend] using h
  | @token depth margined pos gap t rest tokens hgap htext hstart h ih =>
    have hstop : t.stop = (front ++ gap ++ t.text).length := by
      simp only [Token.stop, List.length_append]
      omega
    have hsplit : source = front ++ gap ++ t.text ++ rest := by
      rw [hsource]
      simp only [List.append_assoc]
    intro before after hsplit'
    cases before with
    | nil =>
      obtain rfl : after = t :: tokens := hsplit'.symm
      have hlength : t.start = (front ++ gap).length := by rw [hstart, hpos, List.length_append]
      have hrest : source.drop t.start = t.text ++ rest := by
        rw [hsource, ← List.append_assoc, hlength, List.drop_left]
      have hpiece : piece source pos t.start = gap := by
        rw [piece, hsource, ← List.append_assoc, hlength, List.take_left, hpos, List.drop_left]
      simpa [firstStart, hrest, hpiece] using hgap
    | cons u before =>
      obtain ⟨rfl, hbefore⟩ := List.cons.inj hsplit'
      have hlast : ((t :: before).getLast?.map Token.stop).getD pos =
          (before.getLast?.map Token.stop).getD t.stop := by
        rw [List.getLast?_cons]
        cases before.getLast? <;> rfl
      rw [hlast]
      simpa using ih hsplit hstop before after hbefore

end Laid

theorem visible_cons (hk : t.kind.isLayout = false) :
    visible (t :: tokens) = t :: visible tokens := by
  simp [visible, hk]

theorem visible_append (tokens tokens' : List Token) :
    visible (tokens ++ tokens') = visible tokens ++ visible tokens' := List.filter_append ..

theorem visible_eq_nil (h : ∀ k ∈ kinds tokens, k.isLayout = true) : visible tokens = [] := by
  refine List.filter_eq_nil_iff.2 fun t ht => ?_
  simpa using h t.kind (List.mem_map_of_mem ht)

namespace Lexer

variable {context : Context} {brackets brackets' : List Token}

theorem matchBracket_length (h : matchBracket brackets t = .ok brackets') :
    brackets'.length = depthBehind brackets.length t := by
  unfold depthBehind
  rcases matchBracket_spec h with ⟨hk, rfl⟩ | ⟨o, c, hk, hc, rfl⟩ | ⟨opening, o, c, rfl, -, hc, hk⟩
  · unfold Kind.isBracket at hk
    split
    · rename_i m hm
      rw [hm, Bool.or_eq_false_iff] at hk
      rw [if_neg (by simp [hk.1]), if_neg (by simp [hk.2])]
    · rfl
  · rw [hk]
    simp [hc]
  · have hclosing : c.closing? = none ∧ c.isClosing = true := by
      cases o <;> cases hc <;> exact ⟨rfl, rfl⟩
    rw [hk]
    simp [hclosing]

theorem visible_finish {pos : Nat} (h : finish context pos = .ok tokens) : visible tokens = [] := by
  refine visible_eq_nil fun k hk => ?_
  rw [(finish_spec h).2] at hk
  simp only [List.mem_append, List.mem_replicate, List.mem_singleton] at hk
  rcases hk with hk | ⟨-, rfl⟩ | rfl
  · split at hk
    · rw [List.mem_singleton.1 hk]; rfl
    · cases hk
  · rfl
  · rfl

theorem visible_layout {opened : List Token} {indents indents' : List Nat} {width pos : Nat}
    (h : layout indents width pos rest = .ok (opened, indents')) : visible opened = [] := by
  refine visible_eq_nil fun k hk => ?_
  rcases layout_spec h with ⟨hopened, -⟩ | ⟨closed, -, hopened⟩ <;> rw [hopened] at hk
  · rw [List.mem_singleton.1 hk]; rfl
  · rw [(List.mem_replicate.1 hk).2]; rfl

/-- A line that is left out: an empty one, a comment, or one that a carriage return starts. -/
theorem skipped_emptyLine {line ending next : List Char}
    (indented : ∀ d ∈ margin, Text.isIndent d = true)
    (starts : ∀ d ∈ line.head?, d = '\r' ∨ d = '#') (inLine : '\n' ∉ line)
    (ended : ending = ['\n'] ∨ line ≠ [] ∧ ending = [] ∧ next = []) (hnext : next = gap ++ rest)
    (h : Skipped true false rest true gap) :
    Skipped true false rest true (margin ++ line ++ ending ++ gap) := by
  have hending : Skipped true false rest true (ending ++ gap) := by
    rcases ended with rfl | ⟨-, rfl, -⟩
    · exact .lineEnd h
    · exact h
  have hhead : ∀ d ∈ (ending ++ gap ++ rest).head?, d = '\n' := by
    rcases ended with rfl | ⟨-, rfl, rfl⟩
    · rintro d ⟨⟩; rfl
    · rw [List.nil_append, ← hnext]
      simp
  rw [List.append_assoc, List.append_assoc]
  refine .indented indented ?_
  cases line with
  | nil => exact hending
  | cons c body =>
    have hbody : '\n' ∉ body := fun h => inLine (List.mem_cons_of_mem _ h)
    rcases starts c rfl with rfl | rfl
    · exact .dropped rfl hbody hhead hending
    · exact .comment hbody hhead hending

/-- The tokens of a text lie in it, and what the lexer leaves out stands between them. -/
theorem Scanned.laid (h : Scanned context margined pos text tokens)
    (hmargin : margined = true → context.brackets = []) :
    Laid true context.brackets.length margined pos text (visible tokens) := by
  induction h with
  | @finish context margined pos margin tokens indented inside last =>
    rw [visible_finish last, ← List.append_nil margin]
    exact .last (.indented indented .nil)
  | @emptyLine context pos margin line ending next tokens indented starts inLine ended after ih =>
    have hclosed := hmargin rfl
    refine Laid.skip _ (fun hnext h => ?_) (ih hmargin)
    rw [hclosed] at h ⊢
    exact skipped_emptyLine indented starts inLine ended hnext h
  | @line context pos margin c rest opened indents tokens indented starts blocks after ih =>
    rw [visible_append, visible_layout blocks, List.nil_append]
    exact Laid.skip _ (fun _ h => h.indented indented) (ih (by simp)).atMargin
  | @blank context pos c rest tokens separates after ih =>
    exact Laid.skip [c] (fun _ h => .blank separates h) (ih (by simp))
  | joined after ih =>
    exact Laid.skip ['\\', '\n'] (fun _ h => .joined h) (ih (by simp))
  | @comment context pos body rest tokens inLine ended after ih =>
    refine Laid.skip ('#' :: body) (fun hrest h => .comment inLine (hrest ▸ ended) h) ?_
    rw [List.length_cons, Nat.add_comm body.length 1, ← Nat.add_assoc]
    exact ih (by simp)
  | @lineEnd context pos rest tokens closed after ih =>
    have hvisible : visible (⟨.newline, pos, ['\n']⟩ :: tokens) = visible tokens := rfl
    rw [hvisible, closed]
    exact Laid.skip ['\n'] (fun _ h => .lineEnd h) (ih fun _ => rfl)
  | @innerLineEnd context pos rest tokens inside after ih =>
    refine Laid.skip ['\n'] (fun _ h => .lineEnd ?_) (ih (by simp))
    have hdepth : (context.brackets.length != 0) = true := by simpa using inside
    rwa [hdepth] at h ⊢
  | @token context pos c cs rest brackets tokens kind read matched after ih =>
    have hafter := ih (by simp)
    rw [matchBracket_length matched] at hafter
    have hlaid : Laid true context.brackets.length false pos ([] ++ (c :: cs ++ rest))
        (⟨kind, pos, c :: cs⟩ :: visible tokens) := .token .nil (by simp) rfl hafter
    rw [visible_cons (lexeme_spec read).1]
    exact hlaid

end Lexer

/-- Nothing but blanks, line ends, comments, joined lines, and lines outside brackets from a carriage
return at their margin on is left out of the tokens of a text. -/
theorem tokenize_covers {text : List Char} {tokens : List Token} (h : tokenize text = .ok tokens) :
    Covers true text (visible tokens) := by
  have hlaid := (Lexer.Scanned.of_scan h).laid fun _ => rfl
  have hsource : text = [] ++ text := rfl
  refine ⟨hlaid.pieces hsource rfl, hlaid.ordered, fun before after hsplit => ?_⟩
  have hskipped := hlaid.skipped hsource rfl before after hsplit
  rw [Bool.true_and] at hskipped
  exact hskipped

/-- A line lost at its margin, and a comment and a carriage return in brackets. -/
theorem callBehindLostLine_covers :
    tokenize "\rx\nf( # y\n\r)".toList = .ok [⟨.identifier, 3, ['f']⟩, ⟨.mark .parenOpen, 4, ['(']⟩,
        ⟨.mark .parenClose, 11, [')']⟩, ⟨.newline, 12, []⟩, ⟨.endOfInput, 12, []⟩] ∧
      Covers true "\rx\nf( # y\n\r)".toList [⟨.identifier, 3, ['f']⟩,
        ⟨.mark .parenOpen, 4, ['(']⟩, ⟨.mark .parenClose, 11, [')']⟩] := by
  have h : tokenize "\rx\nf( # y\n\r)".toList = .ok [⟨.identifier, 3, ['f']⟩,
      ⟨.mark .parenOpen, 4, ['(']⟩, ⟨.mark .parenClose, 11, [')']⟩, ⟨.newline, 12, []⟩,
      ⟨.endOfInput, 12, []⟩] := by decide +kernel
  exact ⟨h, tokenize_covers h⟩

/-- A line that starts with a carriage return is lost with all that it holds. -/
theorem returnedLine_lost : ∃ tokens, tokenize "\rx\n".toList = .ok tokens ∧
    ¬Covers false "\rx\n".toList (visible tokens) := by
  refine ⟨[⟨.endOfInput, 3, []⟩], by decide +kernel, fun h => ?_⟩
  have hskipped : Skipped false false [] true ['\r', 'x', '\n'] := h.skipped [] [] rfl
  generalize hgap : ['\r', 'x', '\n'] = gap at hskipped
  cases hskipped with
  | nil | lineEnd | comment | joined => cases hgap
  | dropped hdropping => cases hdropping
  | blank hc hrest =>
    cases hgap
    generalize hgap : ['x', '\n'] = gap at hrest
    cases hrest with
    | nil | lineEnd | comment | joined => cases hgap
    | blank hc =>
      cases hgap
      cases hc

end Hoist.Surface
