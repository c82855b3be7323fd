import Hoist.Proofs.Surface.Atoms
import Hoist.Proofs.Surface.Parts

/-!
# Expressions in their tokens

The tokens that an expression was read from are those of its span, and parentheses around them: the
span of an operation starts with its first operand and ends with its last one, and these may stand in
parentheses that it does not cover. `Formed` says how an expression stands in its tokens, and `Framed`
that moreover its span can be read again, once the parentheses are put back that are missing in it.
-/

namespace Hoist.Surface

open Grammar

/-- The lexemes of some tokens. -/
def lexemes (s : List Token) : List Lexeme := s.map Token.lexeme

@[simp] theorem lexemes_append (s s' : List Token) : lexemes (s ++ s') = lexemes s ++ lexemes s' :=
  List.map_append

@[simp] theorem lexemes_cons (t : Token) (s : List Token) : lexemes (t :: s) = t.lexeme :: lexemes s :=
  rfl

@[simp] theorem length_lexemes (s : List Token) : (lexemes s).length = s.length := List.length_map _

/-- The brackets among some tokens match: they leave the brackets that were open before them. -/
def Balanced (s : List Token) : Prop := ∀ brackets, s.foldlM Lexer.matchBracket brackets = .ok brackets

/-- Tokens without layout whose brackets match. -/
structure Clean (s : List Token) : Prop where
  visible : ∀ t ∈ s, t.kind.isLayout = false
  balanced : Balanced s

section Brackets

variable {s s' : List Token} {t u : Token} {brackets brackets' outer : List Token} {o c : Mark}

theorem Balanced.append (h : Balanced s) (h' : Balanced s') : Balanced (s ++ s') := by
  intro brackets
  rw [List.foldlM_append, h]
  exact h' brackets

/-- Brackets that are open around some tokens stay open. -/
theorem matchBracket_frame (outer : List Token) (h : Lexer.matchBracket brackets t = .ok brackets') :
    Lexer.matchBracket (brackets ++ outer) t = .ok (brackets' ++ outer) := by
  unfold Lexer.matchBracket at h ⊢
  split at h
  · split at h
    · rename_i hopen
      cases h
      rw [if_pos hopen]
      rfl
    · rename_i hopen
      rw [if_neg hopen]
      split at h
      · rename_i hclosing
        rw [if_pos hclosing]
        split at h
        · split at h
          · rename_i hclose
            cases h
            exact if_pos hclose
          · cases h
        · cases h
      · rename_i hclosing
        cases h
        exact if_neg hclosing
  · cases h
    rfl

theorem foldlM_frame (outer : List Token)
    (h : s.foldlM Lexer.matchBracket brackets = .ok brackets') :
    s.foldlM Lexer.matchBracket (brackets ++ outer) = .ok (brackets' ++ outer) := by
  induction s generalizing brackets with
  | nil =>
    cases h
    rfl
  | cons t s ih =>
    obtain ⟨next, hnext, h⟩ := bind_eq_ok.1 h
    exact bind_eq_ok.2 ⟨_, matchBracket_frame outer hnext, ih h⟩

theorem balanced_iff : Balanced s ↔ s.foldlM Lexer.matchBracket [] = .ok [] :=
  ⟨fun h => h [], fun h brackets => by simpa using foldlM_frame brackets h⟩

namespace Clean

theorem nil : Clean [] := ⟨by simp, fun _ => rfl⟩

theorem append (h : Clean s) (h' : Clean s') : Clean (s ++ s') :=
  ⟨fun t ht => (List.mem_append.1 ht).elim (h.visible t) (h'.visible t), h.balanced.append h'.balanced⟩

theorem token (hk : t.kind.isLayout = false) (hb : t.kind.isBracket = false) : Clean [t] := by
  refine ⟨by simpa using hk, fun brackets => ?_⟩
  rw [List.foldlM_cons, Lexer.matchBracket_plain hb]
  rfl

theorem of_kind {k : Kind} (ht : t.kind = k) (hk : k.isLayout = false) (hb : k.isBracket = false) :
    Clean [t] :=
  token (ht ▸ hk) (ht ▸ hb)

theorem bracket (ht : t.kind = .mark o) (hu : u.kind = .mark c) (hc : o.closing? = some c)
    (h : Clean s) : Clean (t :: (s ++ [u])) := by
  constructor
  · intro v hv
    rcases List.mem_cons.1 hv with rfl | hv
    · rw [ht]; rfl
    rcases List.mem_append.1 hv with hv | hv
    · exact h.visible v hv
    · rw [List.mem_singleton.1 hv, hu]; rfl
  · intro brackets
    have hopen : Lexer.matchBracket brackets t = .ok (t :: brackets) := by
      simp [Lexer.matchBracket, ht, hc]
    have hclose : Lexer.matchBracket (t :: brackets) u = .ok brackets := by
      have hnot : c.closing? = none ∧ c.isClosing = true := by
        cases o <;> cases hc <;> exact ⟨rfl, rfl⟩
      obtain ⟨kind, start, text⟩ := t
      obtain rfl : kind = .mark o := ht
      simp [Lexer.matchBracket, hu, hnot, hc]
    rw [List.foldlM_cons, hopen]
    refine bind_eq_ok.2 ⟨_, rfl, ?_⟩
    rw [List.foldlM_append, h.balanced]
    refine bind_eq_ok.2 ⟨_, rfl, ?_⟩
    rw [List.foldlM_cons, hclose]
    rfl

end Clean

end Brackets

/-- The expressions that can be read again from their span. -/
def Expr.isReadable : Expr → Bool
  | .slice .. | .extSlice .. | .starred .. | .yield .. => false
  | _ => true

/-- Between parentheses some lexemes are read as an expression, with as many levels of rules as there
are tokens. -/
def Wraps (ls : List Lexeme) (e : Expr) : Prop :=
  ∀ n rest, (ls ++ .mark .parenClose :: rest).length ≤ n →
    Yields Expr.unplaced (parenthesised (level n)) e.unplaced (wrapped ls ++ rest) rest

/-- Some tokens are read as an item of a list. -/
def Itemed (s : List Token) (e : Expr) : Prop :=
  ∀ n, Item Expr.unplaced (testOrStarWith (level n).test (level n)) EndsItem n e.unplaced (lexemes s)

theorem Itemed.wraps {s : List Token} {e : Expr} (h : Itemed s e) : Wraps (lexemes s) e :=
  fun n _ hlen => parenthesised_one (h n) hlen

/-- The tokens of a span are read as its expression again once some opening parentheses are put before
them and some closing ones behind them. None are missing if the brackets among the tokens match. -/
def Rereads (core : List Token) (e : Expr) : Prop :=
  ∃ front back : List Token, (∀ t ∈ front, t.lexeme = .mark .parenOpen) ∧
    (∀ t ∈ back, t.lexeme = .mark .parenClose) ∧ (Balanced core → front = [] ∧ back = []) ∧
    Balanced (front ++ (core ++ back)) ∧ Wraps (lexemes (front ++ (core ++ back))) e

/-- What the tokens of a node tell: those of an expression are no layout, and can be read again. -/
def Tells (core : List Token) (p : Part) : Prop :=
  ∀ e, p = .expr e → (∀ t ∈ core, t.kind.isLayout = false) ∧ (e.isReadable = true → Rereads core e)

/-- An expression stands in its tokens, with parentheses around the tokens of its span. -/
structure Stands (s : List Token) (e : Expr) (front core back : List Token) : Prop where
  split : s = front ++ (core ++ back)
  opening : ∀ t ∈ front, t.lexeme = .mark .parenOpen
  closing : ∀ t ∈ back, t.lexeme = .mark .parenClose
  starts : StartsAt core e.span.start
  stops : StopsAt core e.span.stop
  nodes : Holds Tells core e.nodes

/-- An expression was put together from some tokens. -/
def Formed (s : List Token) (e : Expr) : Prop :=
  ∃ front core back, Stands s e front core back ∧ (Balanced core → front = [] ∧ back = [])

/-- An expression was read from some tokens, and can be read again from its span. -/
structure Framed (s : List Token) (e : Expr) : Prop where
  clean : Clean s
  stands : ∃ front core back, Stands s e front core back ∧ Tells core (.expr e)

/-- Some tokens start with parentheses and those of some nodes, the first of which starts at an offset. -/
structure Headed (s : List Token) (pos : Nat) (ps : List Part) (front core : List Token) : Prop where
  split : s = front ++ core
  opening : ∀ t ∈ front, t.lexeme = .mark .parenOpen
  starts : StartsAt core pos
  nodes : Holds Tells core ps
  balanced : front = [] ∨ Balanced s

/-- Some tokens end with those of some nodes, the last of which stops at an offset, and parentheses. -/
structure Tailed (s : List Token) (pos : Nat) (ps : List Part) (core back : List Token) : Prop where
  split : s = core ++ back
  closing : ∀ t ∈ back, t.lexeme = .mark .parenClose
  stops : StopsAt core pos
  nodes : Holds Tells core ps

section

variable {s s' s₁ s₂ mid core front back : List Token} {e : Expr} {a b : Nat} {t : Token}
  {ps ps₁ ps₂ ps₃ : List Part}

theorem StartsAt.append (h : StartsAt s a) (s' : List Token) : StartsAt (s ++ s') a := by
  obtain ⟨t, ht, hk, rfl⟩ := h
  obtain ⟨s, rfl⟩ := List.head?_eq_some_iff.1 ht
  exact ⟨t, rfl, hk, rfl⟩

theorem StopsAt.append (h : StopsAt s b) (front : List Token) : StopsAt (front ++ s) b := by
  obtain ⟨before, t, after, rfl, hrest⟩ := h
  exact ⟨front ++ before, t, after, by simp, hrest⟩

theorem StartsAt.ne_nil (h : StartsAt s a) : s ≠ [] := by
  obtain ⟨t, ht, -⟩ := h
  rintro rfl
  cases ht

theorem startsAt_cons (hk : t.kind.isLayout = false) (s : List Token) : StartsAt (t :: s) t.start :=
  ⟨t, rfl, hk, rfl⟩

theorem stopsAt_singleton (hk : t.kind.isLayout = false) : StopsAt [t] t.stop :=
  ⟨[], t, [], rfl, hk, by simp, rfl⟩

/-- Behind parentheses that are not closed by the tokens behind them there is nothing to close. -/
theorem closing_eq_nil (hback : ∀ t ∈ back, t.lexeme = .mark .parenClose)
    (h : back.foldlM Lexer.matchBracket [] = .ok []) : back = [] := by
  cases back with
  | nil => rfl
  | cons t back =>
    obtain ⟨next, hnext, -⟩ := bind_eq_ok.1 h
    have hk : t.kind = .mark .parenClose := congrArg Lexeme.kind (hback t List.mem_cons_self)
    simp [Lexer.matchBracket, hk, Mark.closing?, Mark.isClosing] at hnext

theorem opening_brackets (hfront : ∀ t ∈ front, t.lexeme = .mark .parenOpen) :
    front.foldlM Lexer.matchBracket [] = .ok front.reverse := by
  suffices h : ∀ brackets, front.foldlM Lexer.matchBracket brackets = .ok (front.reverse ++ brackets) by
    simpa using h []
  induction front with
  | nil => exact fun _ => rfl
  | cons t front ih =>
    intro brackets
    have hk : t.kind = .mark .parenOpen := congrArg Lexeme.kind (hfront t List.mem_cons_self)
    have hopen : Lexer.matchBracket brackets t = .ok (t :: brackets) := by
      simp [Lexer.matchBracket, hk, Mark.closing?]
    rw [List.foldlM_cons, hopen]
    refine (ih (fun u hu => hfront u (List.mem_cons_of_mem _ hu)) (t :: brackets)).trans ?_
    simp

/-- Brackets that match among the tokens of a span leave no parenthesis outside it, if the parentheses
in front are closed inside. -/
theorem parentheses_eq_nil (hs : Balanced (front ++ (core ++ back)))
    (hfront : ∀ t ∈ front, t.lexeme = .mark .parenOpen)
    (hback : ∀ t ∈ back, t.lexeme = .mark .parenClose)
    (hhead : front = [] ∨ ∃ x y, core = x ++ y ∧ Balanced (front ++ x)) (hcore : Balanced core) :
    front = [] ∧ back = [] := by
  have hnil : front = [] := by
    obtain hnil | ⟨x, y, rfl, hx⟩ := hhead
    · exact hnil
    have hcore := hcore []
    rw [List.foldlM_append] at hcore
    obtain ⟨brackets, hbrackets, -⟩ := bind_eq_ok.1 hcore
    have hx := hx []
    rw [List.foldlM_append, opening_brackets hfront] at hx
    have hframe := (foldlM_frame front.reverse hbrackets).symm.trans hx
    simpa using (List.append_eq_nil_iff.1 (Except.ok.inj hframe)).2
  subst hnil
  have hs := hs []
  rw [List.nil_append, List.foldlM_append, hcore] at hs
  exact ⟨rfl, closing_eq_nil hback hs⟩

theorem Formed.of_edges {e : Expr} {front core core' back : List Token} (h₁ : Headed s₁ a ps₁ front core)
    (hmid : Holds Tells mid ps₂) (h₂ : Tailed s₂ b ps₃ core' back) (hspan : e.span = ⟨a, b⟩)
    (hnodes : (ps₁ ++ (ps₂ ++ ps₃)).Perm e.nodes) (hs : Balanced (s₁ ++ (mid ++ s₂))) :
    Formed (s₁ ++ (mid ++ s₂)) e := by
  have hsplit : s₁ ++ (mid ++ s₂) = front ++ ((core ++ (mid ++ core')) ++ back) := by
    rw [h₁.split, h₂.split]
    simp
  refine ⟨front, core ++ (mid ++ core'), back, ⟨hsplit, h₁.opening, h₂.closing, ?_, ?_, ?_⟩, ?_⟩
  · rw [hspan]
    exact h₁.starts.append _
  · rw [hspan]
    exact (h₂.stops.append _).append _
  · exact (h₁.nodes.append (hmid.append h₂.nodes)).perm hnodes
  · refine parentheses_eq_nil (hsplit ▸ hs) h₁.opening h₂.closing (h₁.balanced.imp_right fun h => ?_)
    exact ⟨core, mid ++ core', rfl, h₁.split ▸ h⟩

/-- An expression whose span is all of its tokens. -/
theorem Formed.whole (hstart : StartsAt s e.span.start) (hstop : StopsAt s e.span.stop)
    (hnodes : Holds Tells s e.nodes) : Formed s e :=
  ⟨[], s, [], ⟨by simp, by simp, by simp, hstart, hstop, hnodes⟩, fun _ => ⟨rfl, rfl⟩⟩

/-- What was put together can be read again if its tokens can. -/
theorem Formed.framed (h : Formed s e) (hs : Clean s)
    (hwraps : e.isReadable = true → Wraps (lexemes s) e) :
    Framed s e := by
  obtain ⟨front, core, back, hstands, hbalanced⟩ := h
  refine ⟨hs, front, core, back, hstands, ?_⟩
  rintro _ ⟨⟩
  have hsplit := hstands.split
  subst hsplit
  exact ⟨fun t ht => hs.visible t (by simp [ht]), fun hreadable =>
    ⟨front, back, hstands.opening, hstands.closing, hbalanced, hs.balanced, hwraps hreadable⟩⟩

theorem Framed.holds (h : Framed s e) : Holds Tells s [.expr e] := by
  obtain ⟨front, core, back, hstands, htells⟩ := h.stands
  rw [hstands.split]
  have hnode := Holds.node hstands.starts hstands.stops htells hstands.nodes
  exact (hnode.append_right back).append_left front

theorem Framed.headed (h : Framed s e) :
    ∃ front core, Headed s e.span.start [.expr e] front core := by
  obtain ⟨front, core, back, hstands, htells⟩ := h.stands
  exact ⟨front, core ++ back, hstands.split, hstands.opening, hstands.starts.append _,
    (Holds.node hstands.starts hstands.stops htells hstands.nodes).append_right back,
    .inr h.clean.balanced⟩

theorem Framed.tailed (h : Framed s e) : ∃ core back, Tailed s e.span.stop [.expr e] core back := by
  obtain ⟨front, core, back, hstands, htells⟩ := h.stands
  exact ⟨front ++ core, back, by rw [hstands.split, List.append_assoc], hstands.closing,
    hstands.stops.append _,
    (Holds.node hstands.starts hstands.stops htells hstands.nodes).append_left front⟩

theorem Framed.ne_nil (h : Framed s e) : s ≠ [] := by
  obtain ⟨front, core, back, hstands, -⟩ := h.stands
  have := hstands.starts.ne_nil
  rw [hstands.split]
  simp [this]

/-- Parentheses around an expression leave it as it is. -/
theorem Framed.parenthesised {t u : Token} (h : Framed s e) (ht : t.lexeme = .mark .parenOpen)
    (hu : u.lexeme = .mark .parenClose) : Framed (t :: (s ++ [u])) e := by
  obtain ⟨front, core, back, hstands, htells⟩ := h.stands
  refine ⟨h.clean.bracket (congrArg Lexeme.kind ht) (congrArg Lexeme.kind hu) rfl, t :: front, core,
    back ++ [u], ⟨by rw [hstands.split]; simp, ?_, ?_, hstands.starts, hstands.stops, hstands.nodes⟩,
    htells⟩
  · simpa [ht] using hstands.opening
  · simpa [or_imp, forall_and, hu] using hstands.closing

/-- A token at the front of other ones. -/
theorem headed_token (hk : t.kind.isLayout = false) (h : Holds Tells s ps) :
    Headed (t :: s) t.start ps [] (t :: s) :=
  ⟨rfl, by simp, startsAt_cons hk s, h.append_left [t], .inl rfl⟩

theorem tailed_stops (h : StopsAt s b) (hs : Holds Tells s ps) : Tailed s b ps s [] :=
  ⟨(List.append_nil s).symm, by simp, h, hs⟩

theorem tailed_token (hk : t.kind.isLayout = false) (h : Holds Tells s ps) :
    Tailed (s ++ [t]) t.stop ps (s ++ [t]) [] :=
  tailed_stops ((stopsAt_singleton hk).append s) (h.append_right [t])

end

end Hoist.Surface
