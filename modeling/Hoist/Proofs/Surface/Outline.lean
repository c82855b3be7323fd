import Hoist.Proofs.Surface.Lexemes

/-!
# Outlines

A text whose margins matter is an outline: a list of lines, each of which may have further lines
indented below it. `LaidOut` says how an outline may be laid out in a text. Any number of blanks beyond
the margin of a line indents the lines below it, and lines that are blank or hold only a comment stand
anywhere, with any margin. The lexer finds the same lexemes in all these texts: `LaidOut.tokenize`.
-/

namespace Hoist.Surface

/-- The lexeme of a token that only lays out. -/
def Lexeme.layout (k : Kind) : Lexeme := ⟨k, []⟩

@[simp] theorem Lexeme.kind_layout (k : Kind) : (Lexeme.layout k).kind = k := rfl

/-- A line, and the lines that are indented below it. -/
inductive Outline
  | line (ls : List Lexeme) (below : List Outline)

mutual

/-- The lexemes of a line and of the block below it. -/
def Outline.lexemes : Outline → List Lexeme
  | .line ls below => ls ++ .layout .newline ::
      if below.isEmpty then [] else .layout .indent :: (outlined below ++ [.layout .dedent])

/-- The lexemes of some lines. -/
def outlined : List Outline → List Lexeme
  | [] => []
  | o :: os => o.lexemes ++ outlined os

end

@[simp] theorem outlined_append (os os' : List Outline) :
    outlined (os ++ os') = outlined os ++ outlined os' := by
  induction os with
  | nil => rfl
  | cons o os ih => simp [outlined, ih]

/-- Lines whose lexemes are tidy. -/
inductive TidyLines : List Outline → Prop
  | nil : TidyLines []
  | cons {ls below os} (tidy : Tidy ls) (nonempty : ls ≠ []) (block : TidyLines below)
      (after : TidyLines os) : TidyLines (.line ls below :: os)

theorem TidyLines.append {os os' : List Outline} (h : TidyLines os) (h' : TidyLines os') :
    TidyLines (os ++ os') := by
  induction h with
  | nil => exact h'
  | cons tidy nonempty block _ _ ih => exact .cons tidy nonempty block ih

/-- A line goes on with its end and a text, unless it ends with the text. -/
def LineEnd (tail text : List Char) : Prop := tail = '\n' :: text ∨ tail = [] ∧ text = []

/-- The margin of a line. -/
def blanks (width : Nat) : List Char := List.replicate width ' '

/-- A text starts with an outline at a margin, and goes on with another text. -/
inductive LaidOut : Nat → List Outline → List Char → List Char → Prop
  | done {width text} : LaidOut width [] text text
  /-- A line that is blank or holds only a comment, with any margin. -/
  | empty {width os margin comment tail text next} (indented : ∀ d ∈ margin, Text.isIndent d = true)
      (starts : ∀ d ∈ comment.head?, d = '#') (inLine : '\n' ∉ comment) (ended : LineEnd tail text)
      (after : LaidOut width os text next) : LaidOut width os (margin ++ (comment ++ tail)) next
  | line {width ls os tail text next} (ended : LineEnd tail text) (after : LaidOut width os text next) :
      LaidOut width (.line ls [] :: os) (blanks width ++ (spaced ls ++ tail)) next
  /-- The lines below a line have any wider margin. -/
  | block {width extra ls below os text rest next} (nonempty : below ≠ []) (wider : 0 < extra)
      (inside : LaidOut (width + extra) below text rest) (after : LaidOut width os rest next) :
      LaidOut width (.line ls below :: os) (blanks width ++ (spaced ls ++ '\n' :: text)) next

namespace Lexer

/-- At the start of a line inside some blocks, a text has some lexemes. -/
def Reaches (indents : List Nat) (text : List Char) (ls : List Lexeme) : Prop :=
  ∀ pos, ∃ tokens, Scanned ⟨indents, [], false⟩ true pos text tokens ∧ tokens.map Token.lexeme = ls

/-- A text has some lexemes once all blocks have ended that are further in than some blocks. -/
def Continues (indents : List Nat) (text : List Char) (ls : List Lexeme) : Prop :=
  ∀ inner : List Nat, (∀ width ∈ inner, indents.headD 0 < width) →
    Reaches (inner ++ indents) text (List.replicate inner.length (.layout .dedent) ++ ls)

/-- A line with some margin opens or closes blocks, which leaves some blocks open. -/
def Turns (indents : List Nat) (width : Nat) (opened : List Lexeme) (indents' : List Nat) : Prop :=
  ∀ pos rest, ∃ tokens, layout indents width pos rest = .ok (tokens, indents') ∧
    tokens.map Token.lexeme = opened

/-- A text that starts with a line with some margin has some lexemes behind the layout of that line. -/
def Enters (indents : List Nat) (width : Nat) (text : List Char) (ls : List Lexeme) : Prop :=
  ∀ indents' opened, Turns indents' width opened indents → Reaches indents' text (opened ++ ls)

variable {indents indents' : List Nat} {width : Nat} {ls ls' opened : List Lexeme}
  {text tail next margin comment : List Char} {os : List Outline}

theorem marginWidth_blanks (width : Nat) : marginWidth (blanks width) = width := by
  have h : ∀ start, (blanks width).foldl
      (fun w c => if c == '\t' then (w / 8 + 1) * 8 else w + 1) start = start + width := by
    induction width with
    | zero => intro start; rfl
    | succ width ih =>
      intro start
      rw [blanks, List.replicate_succ, List.foldl_cons, if_neg (by decide)]
      exact (ih _).trans (by omega)
  exact (h 0).trans (Nat.zero_add _)

theorem turns_indent (h : indents.headD 0 < width) :
    Turns indents width [.layout .indent] (width :: indents) := by
  intro pos rest
  exact ⟨_, if_pos h, rfl⟩

theorem turns_dedent {inner : List Nat} (h : ∀ w ∈ inner, indents.headD 0 < w) :
    Turns (inner ++ indents) (indents.headD 0)
      (List.replicate inner.length (.layout .dedent)) indents := by
  intro pos rest
  have hinner : ∀ w ∈ inner, decide (indents.headD 0 < w) = true := by simpa using h
  have hhead : ¬ (inner ++ indents).headD 0 < indents.headD 0 := by
    cases inner with
    | nil => exact Nat.lt_irrefl _
    | cons w inner => exact Nat.lt_asymm (h w List.mem_cons_self)
  have htake : (inner ++ indents).takeWhile (indents.headD 0 < ·) = inner := by
    rw [List.takeWhile_append_of_pos hinner]
    cases indents <;> simp
  have hdrop : (inner ++ indents).dropWhile (indents.headD 0 < ·) = indents := by
    rw [List.dropWhile_append_of_pos hinner]
    cases indents <;> simp
  refine ⟨inner.map fun _ => ⟨.dedent, pos, []⟩, ?_, ?_⟩
  · unfold layout
    simp only [if_neg hhead, htake, hdrop, beq_self_eq_true, if_true]
  · rw [List.map_map, ← List.map_const']
    rfl

theorem Continues.reaches (h : Continues indents text ls) : Reaches indents text ls := by
  simpa using h [] (by simp)

/-- A block that is open ends where the blocks around it go on. -/
theorem Continues.deeper (h : Continues indents text ls) (hwidth : indents.headD 0 < width) :
    Continues (width :: indents) text (.layout .dedent :: ls) := by
  intro inner hinner
  have hall : ∀ w ∈ inner ++ [width], indents.headD 0 < w := by
    intro w hw
    rcases List.mem_append.1 hw with hw | hw
    · exact Nat.lt_trans hwidth (hinner w hw)
    · rwa [List.mem_singleton.1 hw]
  have := h _ hall
  rwa [List.append_assoc, List.length_append, List.length_singleton, List.replicate_succ',
    List.append_assoc] at this

theorem Enters.continues (h : Enters indents (indents.headD 0) text ls) : Continues indents text ls :=
  fun _ hinner => h _ _ (turns_dedent hinner)

/-- At the end of a text there is nothing left but the ends of blocks and of the input. -/
theorem Reaches.finish (h : Reaches indents [] ls) (pos : Nat) :
    ∃ tokens, finish ⟨indents, [], false⟩ pos = .ok tokens ∧ tokens.map Token.lexeme = ls := by
  obtain ⟨tokens, hscanned, hls⟩ := h pos
  have hnil : scan ⟨indents, [], false⟩ true pos [] = Lexer.finish ⟨indents, [], false⟩ (pos + 0) :=
    scan_margin_nil (by simp)
  exact ⟨tokens, hnil.symm.trans hscanned.scan_eq, hls⟩

theorem continues_finish : Continues [] [] [.layout .endOfInput] := by
  intro inner _ pos
  refine ⟨_, .finish (by simp) (by simp) rfl, ?_⟩
  simp [Lexeme.layout, Token.lexeme, Kind.isLayout]

/-- A line that is left out has no lexemes. -/
theorem Reaches.empty (indented : ∀ d ∈ margin, Text.isIndent d = true)
    (starts : ∀ d ∈ comment.head?, d = '#') (inLine : '\n' ∉ comment) (ended : LineEnd tail text)
    (h : Reaches indents text ls) : Reaches indents (margin ++ (comment ++ tail)) ls := by
  intro pos
  have hstarts : ∀ d ∈ comment.head?, d = '\r' ∨ d = '#' := fun d hd => .inr (starts d hd)
  rcases ended with rfl | ⟨rfl, rfl⟩
  · obtain ⟨tokens, hscanned, hls⟩ := h (pos + (margin ++ comment ++ ['\n']).length)
    have := Scanned.emptyLine indented hstarts inLine (.inl rfl) hscanned
    exact ⟨tokens, by simpa using this, hls⟩
  · by_cases hcomment : comment = []
    · obtain ⟨tokens, hfinish, hls⟩ := h.finish (pos + margin.length)
      subst hcomment
      exact ⟨tokens, by simpa using Scanned.finish indented (by simp) hfinish, hls⟩
    · obtain ⟨tokens, hscanned, hls⟩ := h (pos + (margin ++ comment ++ []).length)
      have := Scanned.emptyLine indented hstarts inLine (.inr ⟨hcomment, rfl, rfl⟩) hscanned
      exact ⟨tokens, by simpa using this, hls⟩

/-- The end of a line, at which no bracket is open. -/
theorem scanned_lineEnd (ended : LineEnd tail text) (h : Reaches indents text ls) (pos : Nat) :
    ∃ tokens, Scanned ⟨indents, [], true⟩ false pos tail tokens ∧
      tokens.map Token.lexeme = .layout .newline :: ls := by
  rcases ended with rfl | ⟨rfl, rfl⟩
  · obtain ⟨tokens, hscanned, hls⟩ := h (pos + 1)
    exact ⟨_, .lineEnd rfl hscanned, by rw [List.map_cons, hls]; rfl⟩
  · obtain ⟨tokens, hfinish, hls⟩ := h.finish pos
    cases hfinish
    exact ⟨_, .finish (by simp) (fun _ => rfl) rfl, by rw [← hls]; rfl⟩

/-- A line has the lexemes that are written on it. -/
theorem Reaches.line (width : Nat) (tidy : Tidy ls) (nonempty : ls ≠ []) (ended : LineEnd tail text)
    (h : Reaches indents text ls') :
    Enters indents width (blanks width ++ (spaced ls ++ tail)) (ls ++ .layout .newline :: ls') := by
  intro indents' opened hturns pos
  have hindented : ∀ d ∈ blanks width, Text.isIndent d = true := by
    intro d hd
    rw [List.eq_of_mem_replicate hd]
    rfl
  have hseparated : Separated tail := by
    rcases ended with rfl | ⟨rfl, -⟩ <;> simp [Separated]
  obtain ⟨start, hstart⟩ : ∃ start, pos + (blanks width).length = start := ⟨_, rfl⟩
  have hnested : Nested (kinds (placed start ls)) := by
    rw [kinds_placed]
    exact tidy.nested
  obtain ⟨tokens, hscanned, hls⟩ := scanned_lineEnd ended h (start + (spaced ls).length)
  rw [← marginWidth_blanks width] at hturns
  obtain ⟨turned, hlayout, hturned⟩ := hturns start (spaced ls ++ tail)
  have hline : ∀ unended, Scanned ⟨indents, [], unended⟩ false start (spaced ls ++ tail)
      (placed start ls ++ tokens) := fun unended =>
    .lexemes tidy.stands nonempty (foldlM_matchBracket hnested []) hseparated hscanned
  obtain ⟨c, cs, hcs, hstarts⟩ := tidy.exists_head nonempty
  rw [hcs] at hlayout hline ⊢
  subst hstart
  refine ⟨_, .line hindented hstarts hlayout (hline _), ?_⟩
  rw [List.map_append, List.map_append, hturned, hls, lexeme_placed _ tidy.layout_eq_false]

end Lexer

namespace LaidOut

open Lexer

variable {width : Nat} {os : List Outline} {text next : List Char}

/-- In every text in which an outline is laid out, it has the lexemes of its lines. -/
theorem enters (h : LaidOut width os text next) (tidy : TidyLines os) {indents : List Nat}
    (hwidth : indents.headD 0 = width) {ls : List Lexeme} (hnext : Continues indents next ls) :
    Continues indents text (outlined os ++ ls) ∧
      (os ≠ [] → Enters indents width text (outlined os ++ ls)) := by
  induction h generalizing indents ls with
  | done => exact ⟨hnext, fun h => absurd rfl h⟩
  | empty indented starts inLine ended _ ih =>
    obtain ⟨hcontinues, henters⟩ := ih tidy hwidth hnext
    exact ⟨fun inner h => (hcontinues inner h).empty indented starts inLine ended,
      fun hos _ _ h => (henters hos _ _ h).empty indented starts inLine ended⟩
  | @line width l os tail text next ended _ ih =>
    cases tidy with
    | cons tidy nonempty _ hafter =>
      have hrest := (ih hafter hwidth hnext).1.reaches
      have hform : outlined (.line l [] :: os) ++ ls =
          l ++ .layout .newline :: (outlined os ++ ls) := by
        simp [outlined, Outline.lexemes]
      subst hwidth
      rw [hform]
      exact ⟨(hrest.line _ tidy nonempty ended).continues, fun _ => hrest.line _ tidy nonempty ended⟩
  | @block width extra l below os text rest next hbelow wider _ _ ihinside ihafter =>
    cases tidy with
    | cons tidy nonempty hblock hafter =>
      subst hwidth
      have hwider : indents.headD 0 < indents.headD 0 + extra := Nat.lt_add_of_pos_right wider
      have hrest := (ihafter hafter rfl hnext).1.deeper hwider
      have hinside := (ihinside hblock rfl hrest).2 hbelow _ _ (turns_indent hwider)
      have hform : outlined (.line l below :: os) ++ ls = l ++ .layout .newline ::
          ([.layout .indent] ++ (outlined below ++ .layout .dedent :: (outlined os ++ ls))) := by
        simp [outlined, Outline.lexemes, hbelow]
      have hline := hinside.line (indents.headD 0) tidy nonempty (.inl rfl)
      rw [hform]
      exact ⟨hline.continues, fun _ => hline⟩

/-- A text in which an outline is laid out has the lexemes of the outline, and then ends. -/
theorem tokenize_eq (h : LaidOut 0 os text []) (tidy : TidyLines os) :
    ∃ tokens, tokenize text = .ok tokens ∧
      tokens.map Token.lexeme = outlined os ++ [.layout .endOfInput] := by
  obtain ⟨tokens, hscanned, hls⟩ := (h.enters tidy (by rfl) continues_finish).1.reaches 0
  exact ⟨tokens, hscanned.scan_eq, hls⟩

end LaidOut

end Hoist.Surface
