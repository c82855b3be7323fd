import Hoist.Proofs.Flat.Legible

/-!
# The indented form

An s-expression is read off a text token by token: brackets, and the runs of characters between
brackets and white space. The indented form and the form on one line have the same tokens if all
atoms are bare, and a reader that keeps the open lists on a stack finds the s-expression in them.
-/

namespace Hoist.Sexp

/-- A bracket, or a run of characters that are neither brackets nor white space. -/
inductive Token
  | opening
  | closing
  | run (text : List Char)
deriving DecidableEq, Repr

/-- Whether a character belongs to a run. -/
def inRun (c : Char) : Bool := !(Text.isSpace c || c == '(' || c == ')')

/-- The tokens of a text. A run reaches as far as it can; white space only separates. -/
def tokenize : List Char → List Token
  | [] => []
  | c :: text =>
    if Text.isSpace c then tokenize text
    else if c == '(' then .opening :: tokenize text
    else if c == ')' then .closing :: tokenize text
    else .run (c :: text.takeWhile inRun) :: tokenize (text.dropWhile inRun)
termination_by text => text.length
decreasing_by
  all_goals have := Text.length_dropWhile_le inRun text
  all_goals simp only [List.length_cons]; omega

/-- Reads tokens one by one, with the items so far of the innermost list that is open, and those of
the lists around it from the inside out. Outside all lists stands what is read as a whole. -/
def readTokens : List Token → List Sexp → List (List Sexp) → Option Sexp
  | [], [s], [] => some s
  | .opening :: ts, items, around => readTokens ts [] (items :: around)
  | .closing :: ts, items, next :: around => readTokens ts (next ++ [.list items]) around
  | .run text :: ts, items, around =>
    readTokens ts (items ++ [.atom (String.ofList text)]) around
  | _, _, _ => none

/-- The s-expression that some tokens amount to, if they are one as a whole. -/
def ofTokens? (ts : List Token) : Option Sexp := readTokens ts [] []

/-- An atom that is a run. -/
def bareAtom (a : String) : Bool := !a.toList.isEmpty && a.toList.all inRun

mutual

/-- Whether all atoms of an s-expression are bare. -/
def bare : Sexp → Bool
  | .atom a => bareAtom a
  | .list xs => allBare xs

/-- Whether all atoms of several s-expressions are bare. -/
def allBare : List Sexp → Bool
  | [] => true
  | x :: xs => bare x && allBare xs

end

mutual

/-- The tokens of an s-expression, whichever way it is written. -/
def tokens : Sexp → List Token
  | .atom a => [.run a.toList]
  | .list xs => .opening :: (allTokens xs ++ [.closing])

/-- The tokens of several s-expressions. -/
def allTokens : List Sexp → List Token
  | [] => []
  | x :: xs => tokens x ++ allTokens xs

end

/-- A text that no run goes on with. -/
def Breaks (text : List Char) : Prop := ∀ c ∈ text.head?, inRun c = false

variable {a : String} {c : Char} {run text : List Char} {s : Sexp} {xs : List Sexp}

theorem Ends.breaks (h : Ends text) : Breaks text := fun c hc => by
  rcases h c hc with rfl | rfl <;> rfl

theorem tokenize_space (h : Text.isSpace c = true) : tokenize (c :: text) = tokenize text := by
  rw [tokenize, if_pos h]

theorem tokenize_opening : tokenize ('(' :: text) = .opening :: tokenize text := by
  rw [tokenize, if_neg (by decide), if_pos (by decide)]

theorem tokenize_closing : tokenize (')' :: text) = .closing :: tokenize text := by
  rw [tokenize, if_neg (by decide), if_neg (by decide), if_pos (by decide)]

/-- A run is one token if the text behind it does not go on with it. -/
theorem tokenize_run (hne : run ≠ []) (hrun : ∀ c ∈ run, inRun c = true) (hb : Breaks text) :
    tokenize (run ++ text) = .run run :: tokenize text := by
  obtain ⟨c, cs, rfl⟩ := List.exists_cons_of_ne_nil hne
  have hc : (Text.isSpace c = false ∧ (c == '(') = false) ∧ (c == ')') = false := by
    simpa [inRun, and_assoc] using hrun c List.mem_cons_self
  have hcs : ∀ d ∈ cs, inRun d = true := fun d hd => hrun d (List.mem_cons_of_mem _ hd)
  have hstop : text.takeWhile inRun = [] ∧ text.dropWhile inRun = text := by
    cases text with
    | nil => exact ⟨rfl, rfl⟩
    | cons d text =>
      have hd : ¬ inRun d = true := by simp [hb d rfl]
      exact ⟨List.takeWhile_cons_of_neg hd, List.dropWhile_cons_of_neg hd⟩
  rw [List.cons_append, tokenize, hc.1.1, hc.1.2, hc.2, List.takeWhile_append_of_pos hcs,
    List.dropWhile_append_of_pos hcs, hstop.1, hstop.2, List.append_nil]
  rfl

theorem tokenize_margin (depth : Nat) :
    tokenize ((margin depth).toList ++ text) = tokenize text := by
  rw [margin, String.toList_ofList]
  induction 2 * depth with
  | zero => rfl
  | succ n ih => rw [List.replicate_succ, List.cons_append, tokenize_space (by decide), ih]

theorem breaks_line : Breaks ("\n".toList ++ text) := by
  rintro c ⟨⟩
  rfl

theorem tokenize_line : tokenize ("\n".toList ++ text) = tokenize text :=
  tokenize_space (by decide)

/-- The line that opens a block. -/
theorem tokenize_openLine : tokenize ("(\n".toList ++ text) = .opening :: tokenize text := by
  rw [show "(\n".toList ++ text = '(' :: ("\n".toList ++ text) from rfl, tokenize_opening,
    tokenize_line]

/-- The line that closes a block. -/
theorem tokenize_closeLine : tokenize (")\n".toList ++ text) = .closing :: tokenize text := by
  rw [show ")\n".toList ++ text = ')' :: ("\n".toList ++ text) from rfl, tokenize_closing,
    tokenize_line]

/-- A bare atom is written as it is. -/
theorem tokenize_atom (h : bareAtom a = true) (hb : Breaks text) :
    tokenize ((writeAtom a).toList ++ text) = .run a.toList :: tokenize text := by
  simp only [bareAtom, Bool.and_eq_true, Bool.not_eq_true', List.all_eq_true] at h
  have hne := List.isEmpty_eq_false_iff.1 h.1
  rw [writeAtom_of_unspaced hne fun c hc => ?_, tokenize_run hne h.2 hb]
  have := h.2 c hc
  simp only [inRun, Bool.not_eq_true', Bool.or_eq_false_iff] at this
  exact this.1.1

mutual

theorem tokenize_write : ∀ {s : Sexp} {text : List Char}, s.bare = true → Breaks text →
    tokenize (s.write.toList ++ text) = s.tokens ++ tokenize text
  | .atom a, text, h, hb => tokenize_atom h hb
  | .list [], text, _, _ => by
    rw [write, show "()".toList ++ text = '(' :: ')' :: text from rfl, tokenize_opening,
      tokenize_closing]
    rfl
  | .list (x :: xs), text, h, _ => by
    rw [bare, allBare, Bool.and_eq_true] at h
    rw [write_cons, tokenize_opening, tokenize_write h.1 (ends_writeRest xs).breaks,
      tokenize_writeRest h.2]
    simp [tokens, allTokens]

theorem tokenize_writeRest : ∀ {xs : List Sexp} {text : List Char}, allBare xs = true →
    tokenize ((writeRest xs).toList ++ ')' :: text) = allTokens xs ++ .closing :: tokenize text
  | [], text, _ => tokenize_closing
  | x :: xs, text, h => by
    rw [allBare, Bool.and_eq_true] at h
    rw [writeRest_cons, tokenize_space (by decide),
      tokenize_write h.1 (ends_writeRest xs).breaks, tokenize_writeRest h.2]
    simp [allTokens]

end

mutual

/-- The indented form has the tokens of the s-expression; a line end is behind it, so whatever
follows is told apart from it. -/
theorem tokenize_writeIndented : ∀ {s : Sexp} (depth : Nat) {text : List Char}, s.bare = true →
    tokenize ((s.writeIndented depth).toList ++ text) = s.tokens ++ tokenize text
  | .atom a, depth, text, h => by
    rw [writeIndented, String.toList_append, String.toList_append, List.append_assoc,
      List.append_assoc, tokenize_margin, tokenize_atom h breaks_line, tokenize_line]
    rfl
  | .list xs, depth, text, h => by
    rw [writeIndented]
    split
    -- a list that holds a list opens a block
    · simp only [String.toList_append, List.append_assoc]
      rw [tokenize_margin, tokenize_openLine, tokenize_writeItems (depth + 1) h, tokenize_margin,
        tokenize_closeLine, tokens, List.cons_append, List.append_assoc, List.singleton_append]
    · simp only [String.toList_append, List.append_assoc]
      rw [tokenize_margin, tokenize_write h breaks_line, tokenize_line]

theorem tokenize_writeItems : ∀ {xs : List Sexp} (depth : Nat) {text : List Char},
    allBare xs = true →
    tokenize ((writeItems depth xs).toList ++ text) = allTokens xs ++ tokenize text
  | [], _, text, _ => rfl
  | x :: xs, depth, text, h => by
    rw [allBare, Bool.and_eq_true] at h
    rw [writeItems, String.toList_append, List.append_assoc, tokenize_writeIndented depth h.1,
      tokenize_writeItems depth h.2, allTokens, List.append_assoc]

end

mutual

/-- The tokens of an s-expression add it to the innermost list that is open. -/
theorem readTokens_tokens : ∀ (s : Sexp) (ts : List Token) (items : List Sexp)
    (around : List (List Sexp)),
    readTokens (s.tokens ++ ts) items around = readTokens ts (items ++ [s]) around
  | .atom a, ts, items, around => by
    rw [tokens, List.singleton_append, readTokens, String.ofList_toList]
  | .list xs, ts, items, around => by
    rw [tokens, List.cons_append, List.append_assoc, readTokens,
      readTokens_allTokens xs _ [] (items :: around), List.singleton_append, readTokens,
      List.nil_append]

theorem readTokens_allTokens : ∀ (xs : List Sexp) (ts : List Token) (items : List Sexp)
    (around : List (List Sexp)),
    readTokens (allTokens xs ++ ts) items around = readTokens ts (items ++ xs) around
  | [], ts, items, around => by rw [allTokens, List.nil_append, List.append_nil]
  | x :: xs, ts, items, around => by
    rw [allTokens, List.append_assoc, readTokens_tokens x, readTokens_allTokens xs,
      List.append_assoc, List.singleton_append]

end

theorem allTokens_append (xs ys : List Sexp) : allTokens (xs ++ ys) = allTokens xs ++ allTokens ys := by
  induction xs with
  | nil => rfl
  | cons x xs ih => rw [List.cons_append, allTokens, allTokens, ih, List.append_assoc]

/-- The tokens read so far of lists that are open, the innermost list first. -/
def openTokens : List (List Sexp) → List Token
  | [] => []
  | items :: around => openTokens around ++ (allTokens items ++ [.opening])

/-- Nothing but the tokens of an s-expression is read as that s-expression: what was read before, and
what is left, make up its tokens. -/
theorem tokens_of_readTokens {ts : List Token} {items : List Sexp} {around : List (List Sexp)}
    (h : readTokens ts items around = some s) :
    openTokens around ++ (allTokens items ++ ts) = s.tokens := by
  fun_induction readTokens ts items around with
  | case1 x =>
    cases h
    simp [openTokens, allTokens]
  | case2 ts items around ih =>
    rw [← ih h]
    simp [openTokens, allTokens]
  | case3 ts items next around ih =>
    rw [← ih h]
    simp [openTokens, allTokens_append, allTokens, tokens]
  | case4 text ts items around ih =>
    rw [← ih h]
    simp [allTokens_append, allTokens, tokens]
  | case5 => cases h

/-- Tokens are read as an s-expression if and only if they are its tokens. -/
theorem ofTokens?_eq_some_iff {ts : List Token} : ofTokens? ts = some s ↔ ts = s.tokens := by
  constructor
  · exact tokens_of_readTokens
  · rintro rfl
    rw [ofTokens?, ← List.append_nil s.tokens, readTokens_tokens]
    rfl

/-- If all atoms are bare, the indented form has the tokens of the form on one line, wherever it
starts. These tokens are read as the s-expression and no others are, so it is the only one that is
written with them. -/
theorem indented_sameTokens (h : s.bare = true) (depth : Nat) :
    tokenize (s.writeIndented depth).toList = tokenize s.write.toList ∧
    (∀ ts, ofTokens? ts = some s ↔ ts = tokenize s.write.toList) ∧
    ∀ t : Sexp, t.bare = true → tokenize t.write.toList = tokenize s.write.toList → t = s := by
  have hflat : ∀ {t : Sexp}, t.bare = true → tokenize t.write.toList = t.tokens := fun {t} ht => by
    rw [← List.append_nil t.write.toList, tokenize_write ht (by rintro c ⟨⟩), tokenize,
      List.append_nil]
  refine ⟨?_, fun ts => ?_, fun t ht htokens => ?_⟩
  · rw [hflat h, ← List.append_nil (s.writeIndented depth).toList, tokenize_writeIndented depth h,
      tokenize, List.append_nil]
  · rw [hflat h, ofTokens?_eq_some_iff]
  · rw [hflat h, hflat ht] at htokens
    exact Option.some.inj <|
      (ofTokens?_eq_some_iff.2 htokens.symm).symm.trans (ofTokens?_eq_some_iff.2 rfl)

/-- A function that adds one to its argument. -/
def addOne : Sexp :=
  .list [.atom "lambda", .atom "f#1", .list [.atom "x#2"],
    .list [.atom "apply", .atom "add", .atom "x#2", .atom "1"]]

/-- The function is written on a line, and indented on six. -/
theorem addOne_sameTokens :
    (addOne.bare = true ∧ addOne.write = "(lambda f#1 (x#2) (apply add x#2 1))" ∧
      addOne.writeIndented 1 =
        "  (\n    lambda\n    f#1\n    (x#2)\n    (apply add x#2 1)\n  )\n") ∧
    tokenize (addOne.writeIndented 1).toList = tokenize addOne.write.toList ∧
    ofTokens? (tokenize addOne.write.toList) = some addOne := by
  have hbare : addOne.bare = true := by decide +kernel
  obtain ⟨hsame, hread, -⟩ := indented_sameTokens hbare 1
  exact ⟨⟨hbare, by decide +kernel, by decide +kernel⟩, hsame, (hread _).2 rfl⟩

end Hoist.Sexp
