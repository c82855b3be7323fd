import Hoist.Proofs.Surface.Scanned
import Hoist.Surface.Grammar.Constant

/-!
# Tokens and faults as pieces of their text

A token covers the text at its place, and so does what a fault is about. A string token also keeps its
escapes whole: the backslashes between its quotes each have a character behind them, so decoding never
looks past the closing quotes.
-/

namespace Hoist.Surface

/-- A step that finds what `good` tells, or stops with what `bad` tells. -/
structure Settles {ε α : Type} (x : Except ε α) (bad : ε → Prop) (good : α → Prop) : Prop where
  ok : ∀ a, x = .ok a → good a
  error : ∀ e, x = .error e → bad e

namespace Settles

variable {ε α β : Type} {x : Except ε α} {bad : ε → Prop} {good good' : α → Prop}

theorem of_ok {a : α} (h : good a) : Settles (.ok a) bad good :=
  ⟨fun _ ha => Except.ok.inj ha ▸ h, fun _ he => by cases he⟩

theorem of_error {e : ε} (h : bad e) : Settles (.error e) bad good :=
  ⟨fun _ ha => (by cases ha), fun _ he => Except.error.inj he ▸ h⟩

theorem imp (h : Settles x bad good) (hgood : ∀ a, good a → good' a) : Settles x bad good' :=
  ⟨fun a ha => hgood a (h.ok a ha), h.error⟩

theorem known (h : Settles x bad good) : Settles x bad fun a => x = .ok a ∧ good a :=
  ⟨fun a ha => ⟨ha, h.ok a ha⟩, h.error⟩

theorem bind {f : α → Except ε β} {next : β → Prop} (h : Settles x bad good)
    (hf : ∀ a, good a → Settles (f a) bad next) : Settles (x >>= f) bad next := by
  cases x with
  | error e => exact of_error (h.error e rfl)
  | ok a => exact hf a (h.ok a rfl)

theorem map {f : α → β} {next : β → Prop} (h : Settles x bad good)
    (hf : ∀ a, good a → next (f a)) : Settles (f <$> x) bad next := by
  cases x with
  | error e => exact of_error (h.error e rfl)
  | ok a => exact of_ok (hf a (h.ok a rfl))

end Settles

/-- A piece of text stands at an offset of a text. -/
def Occurs (text : List Char) (start : Nat) (piece : List Char) : Prop :=
  ∃ front back, text = front ++ (piece ++ back) ∧ front.length = start

namespace Occurs

variable {text piece rest : List Char} {start n : Nat}

theorem whole (text : List Char) : Occurs text 0 text := ⟨[], [], by simp, rfl⟩

theorem left (h : Occurs text start (piece ++ rest)) : Occurs text start piece := by
  obtain ⟨front, back, rfl, hstart⟩ := h
  exact ⟨front, rest ++ back, by rw [List.append_assoc], hstart⟩

theorem right (h : Occurs text start (piece ++ rest)) :
    Occurs text (start + piece.length) rest := by
  obtain ⟨front, back, rfl, rfl⟩ := h
  exact ⟨front ++ piece, back, by simp only [List.append_assoc], List.length_append⟩

theorem of_front (h : Occurs text start rest) (hp : piece <+: rest) : Occurs text start piece := by
  obtain ⟨back, rfl⟩ := hp
  exact h.left

theorem take (h : Occurs text start piece) (n : Nat) : Occurs text start (piece.take n) :=
  h.of_front (List.take_prefix n piece)

theorem drop (h : Occurs text start piece) (hn : n ≤ piece.length) :
    Occurs text (start + n) (piece.drop n) := by
  rw [← List.take_append_drop n piece] at h
  have := h.right
  rwa [List.length_take, Nat.min_eq_left hn] at this

theorem suffix (h : Occurs text start piece) (hs : rest <:+ piece) :
    Occurs text (start + (piece.length - rest.length)) rest := by
  obtain ⟨front, rfl⟩ := hs
  rw [List.length_append, Nat.add_sub_cancel]
  exact h.right

/-- Behind the characters at the front that have a property. -/
theorem dropWhile (h : Occurs text start piece) (p : Char → Bool) :
    Occurs text (start + (piece.takeWhile p).length) (piece.dropWhile p) := by
  rw [← List.takeWhile_append_dropWhile (p := p) (l := piece)] at h
  exact h.right

theorem nothing (h : Occurs text start piece) : Occurs text start [] := h.take 0

theorem le (h : Occurs text start piece) : start ≤ text.length := by
  obtain ⟨front, back, rfl, rfl⟩ := h
  simp

end Occurs

/-- Whether every backslash of a text has a character behind it that it belongs to. -/
def escapesWhole : List Char → Bool
  | [] => true
  | ['\\'] => false
  | '\\' :: _ :: rest => escapesWhole rest
  | _ :: rest => escapesWhole rest

/-- What stands between the quotes of a string token. -/
def inQuotes (text : List Char) : List Char :=
  (text.drop (quoteWidth text)).take (text.length - 2 * quoteWidth text)

/-- A token of a text. -/
structure Token.OfText (text : List Char) (t : Token) : Prop where
  occurs : Occurs text t.start t.text
  name : t.kind = .identifier → ∀ c ∈ t.text, Text.isIdent c = true
  string : t.kind = .string → Occurs text (t.start + quoteWidth t.text) (inQuotes t.text) ∧
    escapesWhole (inQuotes t.text) = true

/-- A fault of a text. An escape that it blames is there with the character behind its backslash. -/
structure Fault.OfText (text : List Char) (f : Fault) : Prop where
  occurs : Occurs text f.start f.text
  escape : f.complaint = .invalidEscape → f.text.length = 2

namespace Lexer

/-- What is open while a text is read was opened in the text by an opening bracket. -/
def Context.OfText (text : List Char) (context : Context) : Prop :=
  ∀ b ∈ context.brackets, b.OfText text

variable {text cs rest body closing : List Char} {pos n i : Nat} {q c : Char} {t : Token}
  {context : Context} {atMargin : Bool} {brackets : List Token}

theorem escapesWhole_cons (hc : c ≠ '\\') : escapesWhole (c :: rest) = escapesWhole rest := by
  cases rest <;> simp [escapesWhole, hc]

/-- A character that stands neither alone nor in front of another one as a backslash is none. -/
theorem ne_backslash (hlone : c = '\\' → rest = [] → False)
    (hpair : ∀ d rest', c = '\\' → rest = d :: rest' → False) : c ≠ '\\' := by
  intro hc
  cases rest with
  | nil => exact hlone hc rfl
  | cons d rest => exact hpair d rest hc rfl

/-- A search for closing quotes that ends well has passed a text of whole escapes. -/
theorem stringEnd_spec (h : stringEnd closing cs i = .ok n) : ∃ body back,
    cs = body ++ (closing ++ back) ∧ n = i + body.length + closing.length ∧
      escapesWhole body = true := by
  fun_induction stringEnd closing cs i with
  | case1 | case2 | case4 => cases h
  | case3 c rest i ih =>
    obtain ⟨body, back, rfl, rfl, hbody⟩ := ih h
    exact ⟨'\\' :: c :: body, back, rfl, by simp only [List.length_cons]; omega, hbody⟩
  | case5 c rest i hlone hpair hline hclosing =>
    cases h
    obtain ⟨back, hback⟩ := List.isPrefixOf_iff_prefix.1 hclosing
    exact ⟨[], back, hback.symm, rfl, rfl⟩
  | case6 c rest i hlone hpair hline hclosing ih =>
    obtain ⟨body, back, rfl, rfl, hbody⟩ := ih h
    refine ⟨c :: body, back, rfl, by simp only [List.length_cons]; omega, ?_⟩
    rw [escapesWhole_cons (ne_backslash hlone hpair), hbody]

/-- The quotes that open a string are as many as those that close it. -/
theorem quoteWidth_closed {back : List Char}
    (h : q :: rest = closingQuotes q rest ++ (body ++ (closingQuotes q rest ++ back))) :
    quoteWidth (closingQuotes q rest ++ (body ++ closingQuotes q rest)) =
      (closingQuotes q rest).length := by
  unfold closingQuotes at h ⊢
  split
  · simp [quoteWidth]
  · rename_i htwo
    rw [if_neg htwo] at h
    simp only [List.singleton_append, List.cons.injEq, true_and] at h
    simp only [List.singleton_append, quoteWidth, List.length_singleton]
    split
    · rename_i heq
      obtain ⟨rfl, heq⟩ := List.cons.inj heq
      split
      · rename_i a b c r hw
        simp only [Bool.and_eq_true, beq_iff_eq, decide_eq_true_eq] at hw
        obtain ⟨⟨rfl, rfl⟩, -⟩ := hw
        refine absurd ?_ htwo
        rw [h, ← List.singleton_append, ← List.append_assoc, (List.cons.inj heq).2]
        simp
      · rfl
    · rfl

theorem closingQuotes_eq (q : Char) (rest : List Char) :
    closingQuotes q rest = if [q, q].isPrefixOf rest then [q, q, q] else [q] := by
  have htwo : (rest.take 2 == [q, q]) = [q, q].isPrefixOf rest := by
    rw [Bool.eq_iff_iff, beq_iff_eq, List.isPrefixOf_iff_prefix, List.prefix_iff_eq_take]
    exact eq_comm
  rw [closingQuotes, htwo]

theorem closingQuotes_front (q : Char) (rest : List Char) :
    closingQuotes q rest <+: q :: rest := by
  unfold closingQuotes
  split
  · rename_i htwo
    rw [← beq_iff_eq.1 htwo]
    exact (List.cons_prefix_cons).2 ⟨rfl, List.take_prefix 2 rest⟩
  · exact ⟨rest, rfl⟩

/-- A string literal is cut out with both its quotes around whole escapes. -/
theorem stringLength_spec (h : stringLength pos q rest = .ok n) : ∃ body back,
    q :: rest = closingQuotes q rest ++ (body ++ (closingQuotes q rest ++ back)) ∧
      n = (closingQuotes q rest ++ (body ++ closingQuotes q rest)).length ∧
      escapesWhole body = true := by
  simp only [stringLength] at h
  split at h
  · rename_i m hm
    cases h
    obtain ⟨body, back, hcs, rfl, hbody⟩ := stringEnd_spec hm
    refine ⟨body, back, ?_, by simp only [List.length_append]; omega, hbody⟩
    rw [← hcs, List.prefix_iff_eq_append.1 (closingQuotes_front q rest)]
  · cases h

theorem stringLength_settles (h : Occurs text pos (q :: rest)) :
    Settles (stringLength pos q rest) (Fault.OfText text) fun n =>
      Token.OfText text ⟨.string, pos, (q :: rest).take n⟩ := by
  refine ⟨fun n hn => ?_, fun f hf => ?_⟩
  · obtain ⟨body, back, hcs, rfl, hbody⟩ := stringLength_spec hn
    have hwidth := quoteWidth_closed hcs
    have htake : (q :: rest).take (closingQuotes q rest ++ (body ++ closingQuotes q rest)).length =
        closingQuotes q rest ++ (body ++ closingQuotes q rest) := by
      have hsplit : q :: rest =
          closingQuotes q rest ++ (body ++ closingQuotes q rest) ++ back := by
        rw [hcs]
        simp only [List.append_assoc]
      rw [hsplit, List.take_left]
    have hocc := h.take (closingQuotes q rest ++ (body ++ closingQuotes q rest)).length
    rw [htake] at hocc ⊢
    have hinner : inQuotes (closingQuotes q rest ++ (body ++ closingQuotes q rest)) = body := by
      unfold inQuotes
      rw [hwidth, List.drop_left]
      exact List.take_left' (by simp only [List.length_append]; omega)
    exact ⟨hocc, fun hk => (by cases hk), fun _ => by
      rw [hinner, hwidth]; exact ⟨hocc.right.left, hbody⟩⟩
  · simp only [stringLength] at hf
    split at hf
    · cases hf
    · cases hf
      exact ⟨(h.take _).of_front (List.takeWhile_prefix _), fun hc => by cases hc⟩

theorem numberLength_settles (h : Occurs text pos cs) :
    Settles (numberLength pos cs) (Fault.OfText text) fun n =>
      Token.OfText text ⟨.number, pos, cs.take n⟩ := by
  unfold numberLength
  dsimp only
  split
  · exact .of_error ⟨h.take _, fun hc => by cases hc⟩
  · exact .of_ok ⟨h.take _, fun hk => (by cases hk), fun hk => by cases hk⟩

/-- What is read at the front of a text is a token of the text, or what is wrong there is a piece of
it. -/
theorem lexeme_settles (h : Occurs text pos (c :: rest)) :
    Settles (lexeme pos c rest) (Fault.OfText text) fun p =>
      Token.OfText text ⟨p.1, pos, (c :: rest).take p.2⟩ := by
  unfold lexeme
  split
  · exact (stringLength_settles h).map fun _ hn => hn
  split
  · exact (numberLength_settles h).map fun _ hn => hn
  split
  · rename_i hc
    have hrun : (c :: rest).take (c :: rest.takeWhile Text.isIdent).length =
        c :: rest.takeWhile Text.isIdent := by
      rw [List.length_cons, List.take_succ_cons,
        List.prefix_iff_eq_take.1 (List.takeWhile_prefix Text.isIdent)]
      simp
    dsimp only
    split
    · exact .of_ok ⟨h.take _, fun hk => (by cases hk), fun hk => by cases hk⟩
    · refine .of_ok ⟨h.take _, fun _ d hd => ?_, fun hk => by cases hk⟩
      rw [hrun] at hd
      rcases List.mem_cons.1 hd with rfl | hd
      · exact hc
      · exact List.mem_takeWhile_imp hd
  · split
    · exact .of_ok ⟨h.take _, fun hk => (by cases hk), fun hk => by cases hk⟩
    · exact .of_error ⟨h.take 1, fun hc => by cases hc⟩

/-- A token of the layout covers nothing, and stands wherever some piece does. -/
theorem layout_ofText {kind : Kind} (hk : kind.isLayout = true) (h : Occurs text pos cs) :
    Token.OfText text ⟨kind, pos, []⟩ :=
  ⟨h.nothing, fun hi => (by cases hi; cases hk), fun hi => by cases hi; cases hk⟩

theorem layout_settles {indents : List Nat} {width : Nat} (h : Occurs text pos rest) :
    Settles (layout indents width pos rest) (Fault.OfText text) fun p =>
      ∀ t ∈ p.1, t.OfText text := by
  unfold layout
  split
  · exact .of_ok fun t ht => List.mem_singleton.1 ht ▸ layout_ofText rfl h
  dsimp only
  split
  · refine .of_ok fun t ht => ?_
    obtain ⟨_, -, rfl⟩ := List.mem_map.1 ht
    exact layout_ofText rfl h
  · exact .of_error ⟨h.take 1, fun hc => by cases hc⟩

theorem matchBracket_settles (hb : ∀ b ∈ brackets, b.OfText text) (ht : t.OfText text) :
    Settles (matchBracket brackets t) (Fault.OfText text) fun open_ =>
      ∀ b ∈ open_, b.OfText text := by
  have hstray : Fault.OfText text
      ⟨.unexpected "It does not close any open bracket.", t.start, t.text⟩ :=
    ⟨ht.occurs, fun hc => by cases hc⟩
  unfold matchBracket
  split
  · split
    · exact .of_ok (List.forall_mem_cons.2 ⟨ht, hb⟩)
    split
    · split
      · split
        · exact .of_ok (List.forall_mem_cons.1 hb).2
        · exact .of_error hstray
      · exact .of_error hstray
    · exact .of_ok hb
  · exact .of_ok hb

theorem finish_settles (hcontext : context.OfText text) (h : Occurs text pos cs) :
    Settles (finish context pos) (Fault.OfText text) fun tokens =>
      ∀ t ∈ tokens, t.OfText text := by
  unfold finish
  split
  · rename_i b _ hb
    exact .of_error ⟨(hcontext b (hb ▸ List.mem_cons_self)).occurs, fun hc => by cases hc⟩
  · refine .of_ok fun t ht => ?_
    simp only [List.mem_append, List.mem_map, List.mem_singleton] at ht
    rcases ht with (ht | ⟨_, -, rfl⟩) | rfl
    · split at ht
      · exact List.mem_singleton.1 ht ▸ layout_ofText rfl h
      · cases ht
    · exact layout_ofText rfl h
    · exact layout_ofText rfl h

/-- The tokens of a text are tokens of it, and a text that cannot be cut into tokens has a fault. -/
theorem scan_settles (hcontext : context.OfText text) (h : Occurs text pos cs) :
    Settles (scan context atMargin pos cs) (Fault.OfText text) fun tokens =>
      ∀ t ∈ tokens, t.OfText text := by
  fun_induction scan context atMargin pos cs with
  | case1 context pos cs margin start =>
    exact finish_settles hcontext (h.dropWhile Text.isIndent)
  | case2 context pos cs margin start c tail hrest hc next ih =>
    have hline := h.dropWhile Text.isIndent
    rw [hrest] at hline
    refine ih hcontext (hline.suffix ?_)
    exact (List.drop_suffix _ _).trans (List.dropWhile_suffix _)
  | case3 context pos cs margin start c tail hrest hc ih =>
    have hline := h.dropWhile Text.isIndent
    rw [hrest] at hline
    refine (layout_settles hline).bind fun p hp => ?_
    refine (ih p.1 p.2 hcontext hline).bind fun tokens ht => .of_ok ?_
    exact fun t hm => (List.mem_append.1 hm).elim (hp t) (ht t)
  | case4 context pos => exact finish_settles hcontext h
  | case5 context pos c rest hc ih => exact ih hcontext (h.drop (n := 1) (by simp))
  | case6 context pos c rest hc hjoined ih =>
    refine ih hcontext (h.drop (n := 2) ?_)
    simp only [Bool.and_eq_true, beq_iff_eq] at hjoined
    obtain ⟨rest, rfl⟩ := List.head?_eq_some_iff.1 hjoined.2
    simp
  | case7 context pos c rest hc hjoined hcomment next ih =>
    exact ih hcontext ((h.drop (n := 1) (by simp)).suffix (List.dropWhile_suffix _))
  | case8 context pos c rest hc hjoined hcomment hline hclosed ih =>
    refine (ih (fun _ hb => by cases hb) (h.drop (n := 1) (by simp))).bind fun tokens ht => ?_
    refine .of_ok (List.forall_mem_cons.2 ⟨⟨?_, fun hk => (by cases hk), fun hk => by cases hk⟩, ht⟩)
    rw [← beq_iff_eq.1 hline]
    exact h.take 1
  | case9 context pos c rest hc hjoined hcomment hline hclosed ih =>
    exact ih hcontext (h.drop (n := 1) (by simp))
  | case10 context pos c rest hc hjoined hcomment hline ih =>
    refine (lexeme_settles h).known.bind fun p hp => ?_
    obtain ⟨hread, hp⟩ := hp
    obtain ⟨-, hpos, hle⟩ := lexeme_spec hread
    refine (matchBracket_settles hcontext hp).bind fun brackets hb => ?_
    have hafter : Occurs text (pos + p.2) (rest.drop (p.2 - 1)) := by
      obtain ⟨m, hm⟩ : ∃ m, p.2 = m + 1 := ⟨p.2 - 1, by omega⟩
      have := h.drop (n := p.2) hle
      rwa [hm, List.drop_succ_cons, ← hm, show m = p.2 - 1 by omega] at this
    refine (ih p.2 brackets hb hafter).bind fun tokens ht => .of_ok ?_
    exact List.forall_mem_cons.2 ⟨hp, ht⟩

end Lexer

theorem tokenize_settles (text : List Char) :
    Settles (tokenize text) (Fault.OfText text) fun tokens => ∀ t ∈ tokens, t.OfText text :=
  Lexer.scan_settles (fun _ hb => by cases hb) (.whole text)

/-- Decoding whole escapes fails at an unknown one only, with the character behind its backslash. -/
theorem unescape_settles {text cs : List Char} {pos : Nat} (h : Occurs text pos cs)
    (hwhole : escapesWhole cs = true) :
    Settles (unescape pos cs) (Fault.OfText text) fun _ => True := by
  fun_induction unescape pos cs with
  | case1 => exact .of_ok trivial
  | case2 => cases hwhole
  | case3 pos c rest hc ih => exact ih (h.drop (n := 2) (by simp)) hwhole
  | case4 pos c rest hc x hx ih =>
    exact (ih (h.drop (n := 2) (by simp)) hwhole).map fun _ _ => trivial
  | case5 pos c rest hc hx => exact .of_error ⟨h.take 2, fun _ => rfl⟩
  | case6 pos c rest hlone hpair ih =>
    rw [Lexer.escapesWhole_cons (Lexer.ne_backslash hlone hpair)] at hwhole
    exact (ih (h.drop (n := 1) (by simp)) hwhole).map fun _ _ => trivial

namespace Token.OfText

variable {text : List Char} {t : Token}

theorem stringValue_settles (h : t.OfText text) (hk : t.kind = .string) :
    Settles (stringValue t) (Fault.OfText text) fun _ => True :=
  unescape_settles (h.string hk).1 (h.string hk).2

theorem numberValue_settles (h : t.OfText text) :
    Settles (numberValue t) (Fault.OfText text) fun _ => True := by
  unfold numberValue
  dsimp only
  split
  · exact .of_ok trivial
  · refine .of_error ⟨h.occurs, fun hc => ?_⟩
    dsimp only at hc
    split at hc <;> cases hc

end Token.OfText

end Hoist.Surface
