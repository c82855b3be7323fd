import Hoist.Proofs.Surface.FramedStatements

/-!
# Where the nodes of a tree stand

The span of every node of a module that was read from a text starts where a token starts and stops
where one stops, lies in the spans of the nodes above it, and has nothing in common with the span of
any node that is neither above nor below it.
-/

namespace Hoist.Surface

namespace Lexer

variable {context : Context} {atMargin : Bool} {pos n : Nat} {c : Char} {text rest : List Char}
  {tokens : List Token} {m : Mark}

/-- A text that is read as a mark starts with its spelling. -/
theorem lexeme_mark (h : lexeme pos c rest = .ok (.mark m, n)) :
    n = m.spelling.length ∧ m.spelling.toList <+: c :: rest := by
  unfold lexeme at h
  split at h
  · cases hlength : stringLength pos c rest <;> rw [hlength] at h <;> cases h
  split at h
  · cases hlength : numberLength pos (c :: rest) <;> rw [hlength] at h <;> cases h
  split at h
  · dsimp only at h
    split at h <;> cases h
  split at h
  · rename_i m hm
    cases h
    have hprefix := List.find?_some hm
    exact ⟨rfl, List.isPrefixOf_iff_prefix.1 hprefix⟩
  · cases h

/-- Every mark among the tokens of a text is spelled as it is. -/
theorem Scanned.spelled (h : Scanned context atMargin pos text tokens) : ∀ t ∈ tokens, t.Spelled := by
  have hlayout {tokens : List Token} (h : visible tokens = []) : ∀ t ∈ tokens, t.Spelled := by
    rintro t ht m hm
    have hk := List.filter_eq_nil_iff.1 h t ht
    rw [hm] at hk
    exact absurd rfl hk
  induction h with
  | finish _ _ last => exact hlayout (visible_finish last)
  | emptyLine _ _ _ _ _ ih | blank _ _ ih | joined _ ih | comment _ _ _ ih | innerLineEnd _ _ ih => exact ih
  | line _ _ blocks _ ih => exact List.forall_mem_append.2 ⟨hlayout (visible_layout blocks), ih⟩
  | lineEnd _ _ ih => exact List.forall_mem_cons.2 ⟨nofun, ih⟩
  | @token context pos c cs rest brackets tokens kind read matched after ih =>
    refine List.forall_mem_cons.2 ⟨?_, ih⟩
    rintro m (rfl : kind = _)
    obtain ⟨hlength, hprefix⟩ := lexeme_mark read
    have htake := List.prefix_iff_eq_take.1 hprefix
    rw [String.length_toList, ← hlength, ← List.cons_append, List.take_left] at htake
    exact htake.symm

end Lexer

/-- The tokens of a text that are no layout are pieces of it, one behind the other. -/
theorem tokenize_ordered {text : List Char} {tokens : List Token} (h : tokenize text = .ok tokens) :
    Ordered tokens := by
  have hcovers := tokenize_covers h
  refine ⟨fun t ht => ?_, hcovers.ordered⟩
  exact Nat.lt_add_of_pos_right (List.length_pos_iff.2 (hcovers.pieces t ht).1)

/-- The tokens of a text that is read as a module hold its statements. -/
theorem readModule_holds {text : List Char} {m : Module} (h : readModule text = .ok m) :
    ∃ tokens, tokenize text = .ok tokens ∧ HoldsBlock tokens m.body := by
  obtain ⟨⟨body, c⟩, hread, h⟩ := bind_eq_ok.1 h
  cases h
  obtain ⟨tokens, htokens, hread⟩ := bind_eq_ok.1 hread
  have hspelled := (Lexer.Scanned.of_scan htokens).spelled
  obtain ⟨taken, rest, rfl, -, hholds⟩ := readStatements_takes [] tokens body c hspelled trivial hread
  exact ⟨_, htokens, Holds.append_right hholds rest⟩

/-- A span that starts where a token starts and stops where one stops. -/
structure Span.Aligned (text : List Char) (tokens : List Token) (s : Span) : Prop where
  nonempty : s.start < s.stop
  inside : s.stop ≤ text.length
  starts : ∃ t ∈ tokens, t.kind.isLayout = false ∧ t.start = s.start
  stops : ∃ t ∈ tokens, t.kind.isLayout = false ∧ t.stop = s.stop

/-- In every module that was read from a text the spans of all nodes are aligned with the tokens,
those of nodes below a node lie in its span, and those of two nodes of which neither is below the other
are apart. -/
theorem readModule_spans {text : List Char} {m : Module} (h : readModule text = .ok m) :
    ∃ tokens, tokenize text = .ok tokens ∧
      (∀ path p, nodeAt (m.body.map .stmt) path = some p →
        p.span.Aligned text tokens ∧ p.span.Within m.span) ∧
      (∀ path path' p q, nodeAt (m.body.map .stmt) path = some p →
        nodeAt (m.body.map .stmt) path' = some q → path <+: path' → q.span.Within p.span) ∧
      (∀ path path' p q, nodeAt (m.body.map .stmt) path = some p →
        nodeAt (m.body.map .stmt) path' = some q → ¬ path <+: path' → ¬ path' <+: path →
          p.span.Apart q.span) := by
  obtain ⟨tokens, htokens, hholds⟩ := readModule_holds h
  have hordered := tokenize_ordered htokens
  have hpieces := (tokenize_covers htokens).pieces
  refine ⟨tokens, htokens, fun path p hp => ?_, fun path path' p q hp hq hpath =>
    hholds.nodeAt_within hordered hpath hp hq, fun path path' p q hp hq hpath hpath' =>
      hholds.nodeAt_apart hordered hpath hpath' hp hq⟩
  obtain ⟨core, hcore, hstart, hstop, -⟩ := hholds.nodeAt hp
  obtain ⟨t, ht, u, hu, hstart', hstop'⟩ := Ordered.inside hcore hstart hstop
  have hinside : p.span.stop ≤ text.length := hstop' ▸ (hpieces u hu).2.1
  have hspan : m.span = ⟨0, text.length⟩ := by
    obtain ⟨_, -, h⟩ := bind_eq_ok.1 h
    cases h
    rfl
  refine ⟨⟨(hordered.piece hcore).start_lt_stop hstart hstop, hinside, ?_, ?_⟩, ?_⟩
  · obtain ⟨ht, hk⟩ := List.mem_filter.1 ht
    exact ⟨t, ht, by simpa using hk, hstart'⟩
  · obtain ⟨hu, hk⟩ := List.mem_filter.1 hu
    exact ⟨u, hu, by simpa using hk, hstop'⟩
  · rw [hspan]
    exact ⟨Nat.zero_le _, hinside⟩

/-- The span of a call starts at its function, inside the parentheses around it. Its keyword argument
lies in it, apart from the function. -/
theorem keywordArgument_spans :
    readModule "(f)(k=x)\n".toList = .ok ⟨⟨0, 9⟩, [.expr ⟨0, 8⟩ (.call ⟨1, 8⟩ (.name ⟨1, 2⟩ "f") []
        [⟨⟨4, 7⟩, some "k", .name ⟨6, 7⟩ "x"⟩])]⟩ ∧
      (∃ tokens, tokenize "(f)(k=x)\n".toList = .ok tokens ∧
        Span.Aligned "(f)(k=x)\n".toList tokens ⟨4, 7⟩) ∧
      Span.Within ⟨4, 7⟩ ⟨1, 8⟩ ∧ Span.Apart ⟨1, 2⟩ ⟨4, 7⟩ := by
  have htokens : tokenize "(f)(k=x)\n".toList = .ok [⟨.mark .parenOpen, 0, ['(']⟩,
      ⟨.identifier, 1, ['f']⟩, ⟨.mark .parenClose, 2, [')']⟩, ⟨.mark .parenOpen, 3, ['(']⟩,
      ⟨.identifier, 4, ['k']⟩, ⟨.mark .equal, 5, ['=']⟩, ⟨.identifier, 6, ['x']⟩,
      ⟨.mark .parenClose, 7, [')']⟩, ⟨.newline, 8, ['\n']⟩, ⟨.endOfInput, 9, []⟩] := by decide +kernel
  have hread : readModule "(f)(k=x)\n".toList = .ok ⟨⟨0, 9⟩, [.expr ⟨0, 8⟩ (.call ⟨1, 8⟩
      (.name ⟨1, 2⟩ "f") [] [⟨⟨4, 7⟩, some "k", .name ⟨6, 7⟩ "x"⟩])]⟩ := by
    rw [readModule, readFront, htokens]
    rfl
  obtain ⟨tokens, htokens, haligned, hwithin, hapart⟩ := readModule_spans hread
  exact ⟨hread, ⟨tokens, htokens, (haligned [0, 0, 1] _ rfl).1⟩,
    hwithin [0, 0] [0, 0, 1] _ _ rfl rfl ⟨[1], rfl⟩,
    hapart [0, 0, 0] [0, 0, 1] _ _ rfl rfl (by decide) (by decide)⟩

end Hoist.Surface
