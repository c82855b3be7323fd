import Hoist.Proofs.Surface.Relexed
import Hoist.Proofs.TextCoverage

/-!
# Tokens are as long as can be

A keyword or a name is a run of identifier characters that goes on neither before nor behind it, and it
is a keyword if and only if the whole run spells one. A mark is the longest of all spellings that stand
at its place, and behind a number there is no identifier character.

Nothing looks back in a text. That no run starts behind an identifier character comes from what is cut
off before it: only runs and numbers end with such a character, and both end where no other one follows.
-/

namespace Hoist.Surface

/-- The spellings of all keywords and marks. -/
def spellings : List (List Char) :=
  Word.all.map (·.spelling.toList) ++ Mark.all.map (·.spelling.toList)

/-- Whether tokens of a kind are runs of identifier characters. -/
def Kind.isRun : Kind → Bool
  | .identifier | .word _ => true
  | _ => false

/-- The kind of a run of identifier characters. -/
def runKind (run : List Char) : Kind := (Word.ofSpelling? run).elim .identifier .word

/-- A token that could not be longer, between what stands before and behind it in its text. -/
structure Token.Longest (front back : List Char) (t : Token) : Prop where
  run : t.kind.isRun = true → t.text ≠ [] ∧ (∀ c ∈ t.text, Text.isIdent c = true) ∧
    (∀ c ∈ front.getLast?, Text.isIdent c = false) ∧ ∀ c ∈ back.head?, Text.isIdent c = false
  keyword : t.kind.isRun = true → ∀ w, t.kind = .word w ↔ t.text = w.spelling.toList
  mark : ∀ m, t.kind = .mark m → t.text = m.spelling.toList ∧
    ∀ s ∈ spellings, s <+: t.text ++ back → s.length ≤ t.text.length
  number : t.kind = .number → ∀ c ∈ back.head?, Text.isIdent c = false

/-- Identifier characters at the end of one text and at the start of another one are not both there. -/
def Parted (front back : List Char) : Prop :=
  ∀ c ∈ front.getLast?, Text.isIdent c = true → ∀ d ∈ back.head?, Text.isIdent d = false

variable {front back cs rest : List Char} {c d : Char} {m : Mark} {w : Word} {kind : Kind}
  {pos n : Nat}

theorem runKind_isRun (run : List Char) : (runKind run).isRun = true := by
  unfold runKind
  cases Word.ofSpelling? run <;> rfl

theorem runKind_eq_word_iff (run : List Char) : runKind run = .word w ↔ run = w.spelling.toList := by
  unfold runKind
  constructor
  · intro h
    cases hfound : Word.ofSpelling? run with
    | none => rw [hfound] at h; cases h
    | some v =>
      rw [hfound] at h
      cases h
      have hspelling := List.find?_some hfound
      exact (beq_iff_eq.1 hspelling).symm
  · rintro rfl
    cases w <;> rfl

/-- Every keyword starts with an identifier character. -/
theorem Word.spelling_head (w : Word) : ∃ c cs, w.spelling.toList = c :: cs ∧ Text.isIdent c = true := by
  cases w <;> exact ⟨_, _, rfl, rfl⟩

/-- No mark ends with an identifier character. -/
theorem Mark.spelling_getLast (m : Mark) : ∀ c ∈ m.spelling.toList.getLast?, Text.isIdent c = false := by
  cases m <;> rintro _ ⟨⟩ <;> rfl

/-- The table of the marks has the longer spellings first, so the mark that is found is the longest one
in front of a text. -/
theorem Mark.ofFront?_longest (h : ofFront? cs = some m) :
    ∀ m' : Mark, m'.spelling.toList <+: cs → m'.spelling.toList.length ≤ m.spelling.toList.length := by
  intro m' hfront
  obtain ⟨-, before, behind, hall, hbefore⟩ := List.find?_eq_some_iff_append.1 h
  have hmem : m' ∈ before ++ m :: behind := by
    rw [← hall]
    cases m' <;> decide
  rcases List.mem_append.1 hmem with hm' | hm'
  · have := hbefore m' hm'
    rw [List.isPrefixOf_iff_prefix.2 hfront] at this
    cases this
  · have hfalling : all.Pairwise (·.spelling.toList.length ≥ ·.spelling.toList.length) := by decide
    rw [hall] at hfalling
    rcases List.mem_cons.1 hm' with rfl | hm'
    · exact le_rfl
    · exact (List.pairwise_cons.1 (List.pairwise_append.1 hfalling).2.1).1 m' hm'

namespace Parted

theorem of_head (h : ∀ d ∈ back.head?, Text.isIdent d = false) : Parted front back :=
  fun _ _ _ => h

theorem of_getLast (h : ∀ c ∈ front.getLast?, Text.isIdent c = false) : Parted front back := by
  intro c hc hident
  rw [h c hc] at hident
  cases hident

/-- Behind a character that is none of identifiers all is parted. -/
theorem behind (hc : Text.isIdent c = false) : Parted (front ++ [c]) back :=
  of_getLast fun d hd => by
    rw [List.getLast?_concat] at hd
    cases hd
    exact hc

end Parted

namespace Lexer

variable {context : Context} {margined : Bool} {text source : List Char} {tokens : List Token}

/-- The four things that a token may be: a string, a number, a run of identifier characters, a mark. -/
theorem lexeme_cases (h : lexeme pos c rest = .ok (kind, n)) :
    (kind = .string ∧ stringLength pos c rest = .ok n ∧ (c = '\'' ∨ c = '"')) ∨
      (kind = .number ∧ numberLength pos (c :: rest) = .ok n) ∨
      (kind = runKind (c :: rest.takeWhile Text.isIdent) ∧ Text.isIdent c = true ∧
        n = (c :: rest.takeWhile Text.isIdent).length) ∨
      ∃ m, kind = .mark m ∧ Text.isIdent c = false ∧ Mark.ofFront? (c :: rest) = some m ∧
        n = m.spelling.toList.length := by
  unfold lexeme at h
  split at h
  · rename_i hquote
    cases hlength : stringLength pos c rest <;> rw [hlength] at h <;> cases h
    exact .inl ⟨rfl, rfl, by simpa using hquote⟩
  split at h
  · cases hlength : numberLength pos (c :: rest) <;> rw [hlength] at h <;> cases h
    exact .inr (.inl ⟨rfl, rfl⟩)
  split at h
  · rename_i hc
    dsimp only at h
    refine .inr (.inr (.inl ?_))
    unfold runKind
    split at h <;> rename_i hword <;> cases h <;> exact ⟨by rw [hword]; rfl, hc, rfl⟩
  · rename_i hc
    split at h
    · rename_i m hm
      cases h
      exact .inr (.inr (.inr ⟨m, rfl, by simpa using hc, hm, String.length_toList.symm⟩))
    · cases h

/-- A string ends with a quote. -/
theorem string_getLast (h : stringLength pos c (cs ++ rest) = .ok (c :: cs).length)
    (hquote : c = '\'' ∨ c = '"') : ∀ d ∈ (c :: cs).getLast?, Text.isIdent d = false := by
  obtain ⟨body, back, htext, hlength, -⟩ := stringLength_spec h
  rw [← List.cons_append, ← List.append_assoc, ← List.append_assoc, List.append_assoc _ body] at htext
  rw [(List.append_inj htext hlength).1]
  have hclosing : (closingQuotes c (cs ++ rest)).getLast? = some c := by
    unfold closingQuotes
    split <;> rfl
  rw [← List.append_assoc, List.getLast?_append, hclosing]
  rintro d ⟨⟩
  rcases hquote with rfl | rfl <;> rfl

/-- A run of identifier characters is cut off whole. -/
theorem run_split (h : (c :: cs).length = (c :: (cs ++ rest).takeWhile Text.isIdent).length) :
    (cs ++ rest).takeWhile Text.isIdent = cs ∧ ∀ d ∈ rest.head?, Text.isIdent d = false := by
  have hsplit := List.takeWhile_append_dropWhile (p := Text.isIdent) (l := cs ++ rest)
  obtain ⟨htake, hdrop⟩ := List.append_inj hsplit (by simpa using h.symm)
  refine ⟨htake, fun d hd => ?_⟩
  have := List.head?_dropWhile_not Text.isIdent (cs ++ rest)
  rw [hdrop, Option.mem_def.1 hd] at this
  simpa using this

/-- What is cut off behind a text that is parted from it is as long as can be, and what is left is again
parted. -/
theorem lexeme_longest (hparted : Parted front (c :: cs ++ rest))
    (h : lexeme pos c (cs ++ rest) = .ok (kind, (c :: cs).length)) :
    Token.Longest front rest ⟨kind, pos, c :: cs⟩ ∧ Parted (front ++ (c :: cs)) rest := by
  have hlast : (front ++ (c :: cs)).getLast? = (c :: cs).getLast? :=
    List.getLast?_append_of_ne_nil _ (List.cons_ne_nil c cs)
  rcases lexeme_cases h with ⟨rfl, hstring, hquote⟩ | ⟨rfl, hnumber⟩ | ⟨rfl, hc, hrun⟩ |
    ⟨m, rfl, hc, hm, hlength⟩
  · refine ⟨⟨nofun, nofun, nofun, nofun⟩, .of_getLast ?_⟩
    rw [hlast]
    exact string_getLast hstring hquote
  · have hhead : ∀ d ∈ rest.head?, Text.isIdent d = false := by
      intro d hd
      have := (numberLength_spec (w := c :: cs) hnumber).2
      rwa [Option.mem_def.1 hd] at this
    exact ⟨⟨nofun, nofun, nofun, fun _ => hhead⟩, .of_head hhead⟩
  · obtain ⟨htake, hhead⟩ := run_split hrun
    have hkind : ∀ k, runKind (c :: cs) = k → k.isRun = true := by
      rintro _ rfl
      exact runKind_isRun _
    rw [htake]
    refine ⟨⟨fun _ => ⟨List.cons_ne_nil c cs, fun d hd => ?_, fun d hd => ?_, hhead⟩,
      fun _ w => runKind_eq_word_iff _, fun m hm => (by cases hkind _ hm),
      fun hk => by cases hkind _ hk⟩, .of_head hhead⟩
    · rcases List.mem_cons.1 hd with rfl | hd
      · exact hc
      · rw [← htake] at hd
        exact List.mem_takeWhile_imp hd
    · by_contra hident
      have := hparted d hd (by simpa using hident) c rfl
      rw [hc] at this
      cases this
  · have hfront := List.find?_some hm
    rw [List.isPrefixOf_iff_prefix, ← List.cons_append] at hfront
    have hspelling : m.spelling.toList = c :: cs :=
      (List.prefix_of_prefix_length_le hfront (List.prefix_append _ _) hlength.ge).eq_of_length
        hlength.symm
    refine ⟨⟨nofun, nofun, ?_, nofun⟩, .of_getLast ?_⟩
    · rintro _ ⟨⟩
      refine ⟨hspelling.symm, fun s hs hfits => ?_⟩
      -- a keyword cannot stand here, for it would start with an identifier character
      rcases List.mem_append.1 hs with hs | hs
      · obtain ⟨w, -, rfl⟩ := List.mem_map.1 hs
        obtain ⟨d, ds, hw, hd⟩ := w.spelling_head
        rw [hw, List.cons_append, List.cons_prefix_cons] at hfits
        rw [hfits.1, hc] at hd
        cases hd
      · obtain ⟨m', -, rfl⟩ := List.mem_map.1 hs
        rw [← hspelling]
        exact Mark.ofFront?_longest hm m' hfits
    · rw [hlast, ← hspelling]
      exact m.spelling_getLast

/-- All that is cut off a text is as long as can be in the whole one. -/
theorem Scanned.longest (h : Scanned context margined pos text tokens) (hsource : source = front ++ text)
    (hpos : front.length = pos) (hparted : Parted front text) :
    ∀ t ∈ visible tokens, ∃ front back, source = front ++ (t.text ++ back) ∧
      front.length = t.start ∧ t.Longest front back := by
  induction h generalizing front with
  | finish _ _ last => simp [visible_finish last]
  | @emptyLine context pos margin line ending next tokens indented starts inLine ended after ih =>
    refine @ih (front ++ (margin ++ line ++ ending)) ?_ ?_ ?_
    · rw [hsource, ← List.append_assoc]
    · rw [List.length_append, hpos]
    · rcases ended with rfl | ⟨-, -, rfl⟩
      · rw [← List.append_assoc]
        exact .behind rfl
      · exact .of_head nofun
  | @line context pos margin c rest opened indents tokens indented starts blocks after ih =>
    rw [visible_append, visible_layout blocks, List.nil_append]
    refine @ih (front ++ margin) ?_ ?_ ?_
    · rw [hsource, List.append_assoc]
    · rw [List.length_append, hpos]
    · cases margin using List.reverseRecOn with
      | nil => simpa using hparted
      | append_singleton margin d =>
        rw [← List.append_assoc]
        have hd := indented d (by simp)
        refine .behind ?_
        simp only [Text.isIndent, Bool.or_eq_true, beq_iff_eq] at hd
        rcases hd with (rfl | rfl) | rfl <;> rfl
  | @blank context pos c rest tokens separates after ih =>
    refine @ih (front ++ [c]) (by simpa using hsource) (by simp [hpos]) (.behind ?_)
    simp only [Text.isBlank, Bool.or_eq_true, beq_iff_eq] at separates
    rcases separates with ((rfl | rfl) | rfl) | rfl <;> rfl
  | @joined context pos rest tokens after ih =>
    exact @ih (front ++ ['\\'] ++ ['\n']) (by simpa using hsource) (by simp [hpos]) (.behind rfl)
  | @comment context pos body rest tokens inLine ended after ih =>
    refine @ih (front ++ '#' :: body) (by simpa using hsource) (by simp [hpos]; omega)
      (.of_head fun d hd => ?_)
    rw [ended d hd]
    rfl
  | @lineEnd context pos rest tokens closed after ih =>
    exact @ih (front ++ ['\n']) (by simpa using hsource) (by simp [hpos]) (.behind rfl)
  | @innerLineEnd context pos rest tokens inside after ih =>
    exact @ih (front ++ ['\n']) (by simpa using hsource) (by simp [hpos]) (.behind rfl)
  | @token context pos c cs rest brackets tokens kind read matched after ih =>
    obtain ⟨hlongest, hbehind⟩ := lexeme_longest hparted read
    rw [visible_cons (lexeme_spec read).1]
    refine List.forall_mem_cons.2 ⟨⟨front, rest, hsource, hpos, hlongest⟩, ?_⟩
    exact ih (by simpa using hsource) (by simp [hpos]) hbehind

end Lexer

/-- Every token of a text that is no layout stands at its place in the text and could not be longer. -/
theorem tokenize_longest {text : List Char} {tokens : List Token} (h : tokenize text = .ok tokens) :
    ∀ t ∈ visible tokens, ∃ front back, text = front ++ (t.text ++ back) ∧
      front.length = t.start ∧ t.Longest front back := by
  have hwhole : text = [] ++ text := rfl
  exact (Lexer.Scanned.of_scan h).longest hwhole rfl (.of_getLast nofun)

/-- Keywords go on into names, `**=` is one mark, and a number ends at a mark. -/
theorem wordsAndMarks_longest :
    tokenize "iffy is 1.5**=in_".toList = .ok [⟨.identifier, 0, "iffy".toList⟩,
        ⟨.word .is_, 5, "is".toList⟩, ⟨.number, 8, "1.5".toList⟩, ⟨.mark .powEq, 11, "**=".toList⟩,
        ⟨.identifier, 14, "in_".toList⟩, ⟨.newline, 17, []⟩, ⟨.endOfInput, 17, []⟩] ∧
      Token.Longest "iffy is 1.5".toList "in_".toList ⟨.mark .powEq, 11, "**=".toList⟩ ∧
      Token.Longest "iffy ".toList " 1.5**=in_".toList ⟨.word .is_, 5, "is".toList⟩ := by
  have h : tokenize "iffy is 1.5**=in_".toList = .ok [⟨.identifier, 0, "iffy".toList⟩,
      ⟨.word .is_, 5, "is".toList⟩, ⟨.number, 8, "1.5".toList⟩, ⟨.mark .powEq, 11, "**=".toList⟩,
      ⟨.identifier, 14, "in_".toList⟩, ⟨.newline, 17, []⟩, ⟨.endOfInput, 17, []⟩] := by decide +kernel
  have hlongest := tokenize_longest h
  refine ⟨h, ?_, ?_⟩
  · obtain ⟨front, back, htext, hfront, hlongest⟩ := hlongest _ (List.mem_of_getElem? (i := 3) rfl)
    have hsplit : "iffy is 1.5".toList ++ ("**=".toList ++ "in_".toList) =
        front ++ ("**=".toList ++ back) := htext
    obtain ⟨rfl, hback⟩ := List.append_inj hsplit hfront.symm
    obtain rfl := List.append_cancel_left hback
    exact hlongest
  · obtain ⟨front, back, htext, hfront, hlongest⟩ := hlongest _ (List.mem_of_getElem? (i := 1) rfl)
    have hsplit : "iffy ".toList ++ ("is".toList ++ " 1.5**=in_".toList) =
        front ++ ("is".toList ++ back) := htext
    obtain ⟨rfl, hback⟩ := List.append_inj hsplit hfront.symm
    obtain rfl := List.append_cancel_left hback
    exact hlongest

end Hoist.Surface
