import Hoist.Flat.Node
import Hoist.Proofs.Surface.Lexemes

/-!
# S-expressions that can be read off their text

Atoms are written as they are, so their text tells where they end only if they are plain, without
blanks, brackets and quotes, or quoted strings. S-expressions of such atoms are unlike in their texts,
and no text of one goes on with what may stand behind another.
-/

namespace Hoist

namespace Surface

variable {c c' : Char} {cs cs' text text' : List Char} {s s' : String}

theorem quoteChar_append_inj (h : Text.quoteChar c ++ text = Text.quoteChar c' ++ text') :
    c = c' ∧ text = text' := by
  rcases quoteChar_cases c with ⟨hc, -, hne, -⟩ | ⟨m, hc, hm, -⟩ <;>
    rcases quoteChar_cases c' with ⟨hc', -, hne', -⟩ | ⟨m', hc', hm', -⟩ <;>
    rw [hc, hc'] at h <;> simp only [List.cons_append, List.nil_append, List.cons.injEq] at h
  · exact h
  · exact absurd h.1 hne
  · exact absurd h.1.symm hne'
  · obtain ⟨-, rfl, htext⟩ := h
    exact ⟨Option.some.inj (hm.symm.trans hm'), htext⟩

/-- A string ends at its closing quote, so what stands behind it is told apart from it. -/
theorem quoted_append_inj (cs cs' : List Char)
    (h : cs.flatMap Text.quoteChar ++ '\'' :: text = cs'.flatMap Text.quoteChar ++ '\'' :: text') :
    cs = cs' ∧ text = text' := by
  have hhead : ∀ {c : Char} {u v : List Char}, Text.quoteChar c ++ u ≠ '\'' :: v := by
    intro c u v hne
    rcases quoteChar_cases c with ⟨hc, hquote, -⟩ | ⟨m, hc, -⟩ <;> rw [hc] at hne
    · exact hquote (List.cons.inj hne).1
    · exact absurd (List.cons.inj hne).1 (by decide)
  induction cs generalizing cs' with
  | nil =>
    cases cs' with
    | nil => exact ⟨rfl, (List.cons.inj h).2⟩
    | cons c' cs' =>
      rw [List.flatMap_cons, List.append_assoc] at h
      exact absurd h.symm hhead
  | cons c cs ih =>
    cases cs' with
    | nil =>
      rw [List.flatMap_cons, List.append_assoc] at h
      exact absurd h hhead
    | cons c' cs' =>
      rw [List.flatMap_cons, List.flatMap_cons, List.append_assoc, List.append_assoc] at h
      obtain ⟨rfl, hrest⟩ := quoteChar_append_inj h
      obtain ⟨rfl, htext⟩ := ih cs' hrest
      exact ⟨rfl, htext⟩

theorem quote_append_inj
    (h : (Text.quote s).toList ++ text = (Text.quote s').toList ++ text') : s = s' ∧ text = text' := by
  simp only [Text.quote, String.toList_ofList, List.cons_append, List.append_assoc,
    List.nil_append, List.cons.injEq, true_and] at h
  obtain ⟨hs, htext⟩ := quoted_append_inj _ _ h
  exact ⟨String.toList_inj.1 hs, htext⟩

end Surface

namespace Sexp

/-- Whether a character neither separates atoms nor opens a quoted one. -/
def isPlain (c : Char) : Bool :=
  !(Text.isSpace c || c == '(' || c == ')' || c == '\'' || c == '"')

/-- An atom that stands for itself. -/
structure Plain (a : String) : Prop where
  nonempty : a.toList ≠ []
  chars : ∀ c ∈ a.toList, isPlain c = true

theorem Plain.of_all {a : String} (hne : a.toList ≠ []) (h : a.toList.all isPlain = true) : Plain a :=
  ⟨hne, List.all_eq_true.1 h⟩

/-- An atom whose text tells where it ends. -/
inductive LegibleAtom : String → Prop
  | plain {a : String} (h : Plain a) : LegibleAtom a
  | quoted (s : String) : LegibleAtom (Text.quote s)

mutual

/-- An s-expression of atoms whose texts tell where they end. -/
def Legible : Sexp → Prop
  | .atom a => LegibleAtom a
  | .list xs => AllLegible xs

/-- Several such s-expressions. -/
def AllLegible : List Sexp → Prop
  | [] => True
  | x :: xs => Legible x ∧ AllLegible xs

end

/-- What may stand behind an s-expression. -/
def Ends (text : List Char) : Prop := ∀ c ∈ text.head?, c = ' ' ∨ c = ')'

variable {a b : String} {text text' : List Char}

theorem Ends.nil : Ends [] := by rintro _ ⟨⟩

theorem Ends.cons {c : Char} (h : c = ' ' ∨ c = ')') : Ends (c :: text) := by
  rintro d ⟨⟩
  exact h

/-- An atom without white space stands for itself. -/
theorem writeAtom_of_unspaced (hne : a.toList ≠ []) (h : ∀ c ∈ a.toList, Text.isSpace c = false) :
    writeAtom a = a := by
  have hspace : a.toList.any Text.isSpace = false :=
    List.any_eq_false.2 fun c hc hs => absurd hs (by simp [h c hc])
  rw [Sexp.writeAtom, hspace, List.isEmpty_eq_false_iff.2 hne]
  rfl

theorem Plain.writeAtom (h : Plain a) : writeAtom a = a :=
  writeAtom_of_unspaced h.nonempty fun c hc => by
    have := h.chars c hc
    simp only [isPlain, Bool.not_eq_true', Bool.or_eq_false_iff] at this
    exact this.1.1.1.1

/-- A plain atom reaches up to what separates it from the next. -/
theorem Plain.takeWhile (h : Plain a) (hends : Ends text) :
    (a.toList ++ text).takeWhile isPlain = a.toList := by
  rw [List.takeWhile_append_of_pos h.chars]
  cases text with
  | nil => simp
  | cons c text =>
    have hc : isPlain c = false := by
      rcases hends c rfl with rfl | rfl <;> rfl
    rw [List.takeWhile_cons_of_neg (by simp [hc]), List.append_nil]

theorem Plain.head (h : Plain a) : ∀ c ∈ (a.toList ++ text).head?, isPlain c = true := by
  obtain ⟨d, ds, hd⟩ := List.exists_cons_of_ne_nil h.nonempty
  rw [hd]
  rintro c ⟨⟩
  exact h.chars d (by rw [hd]; exact List.mem_cons_self)

/-- A quoted string is written as it is, or between double quotes. -/
theorem writeAtom_quote (s : String) :
    (writeAtom (Text.quote s)).toList = (Text.quote s).toList ∨
      (writeAtom (Text.quote s)).toList = '"' :: ((Text.quote s).toList ++ ['"']) := by
  unfold writeAtom
  split
  · exact .inr (by simp)
  · exact .inl rfl

theorem head_writeAtom_quote (s : String) : ∃ c cs, (writeAtom (Text.quote s)).toList = c :: cs ∧
    (c = '\'' ∨ c = '"') := by
  obtain ⟨cs, hcs⟩ : ∃ cs, (Text.quote s).toList = '\'' :: cs :=
    ⟨_, by rw [Text.quote, String.toList_ofList]⟩
  rcases writeAtom_quote s with h | h <;> rw [h]
  · exact ⟨_, _, hcs, .inl rfl⟩
  · exact ⟨_, _, rfl, .inr rfl⟩

/-- An atom does not start with a bracket. -/
theorem LegibleAtom.head (h : LegibleAtom a) :
    ∃ c cs, (writeAtom a).toList = c :: cs ∧ c ≠ '(' ∧ c ≠ ')' := by
  cases h with
  | plain h =>
    obtain ⟨c, cs, hc⟩ := List.exists_cons_of_ne_nil h.nonempty
    have hplain := h.chars c (by rw [hc]; exact List.mem_cons_self)
    refine ⟨c, cs, by rw [h.writeAtom, hc], ?_⟩
    constructor <;> rintro rfl <;> cases hplain
  | quoted s =>
    obtain ⟨c, cs, hc, rfl | rfl⟩ := head_writeAtom_quote s
    · exact ⟨_, _, hc, by decide, by decide⟩
    · exact ⟨_, _, hc, by decide, by decide⟩

theorem quoted_writeAtom_append_inj {s s' : String}
    (h : (writeAtom (Text.quote s)).toList ++ text = (writeAtom (Text.quote s')).toList ++ text') :
    s = s' := by
  rcases writeAtom_quote s with hs | hs <;> rcases writeAtom_quote s' with hs' | hs' <;>
    rw [hs, hs'] at h
  · exact (Surface.quote_append_inj h).1
  · simp [Text.quote] at h
  · simp [Text.quote] at h
  · simp only [List.cons_append, List.append_assoc, List.cons.injEq, true_and] at h
    exact (Surface.quote_append_inj h).1

/-- The text of an atom tells the atom and where it ends. -/
theorem writeAtom_append_inj (ha : LegibleAtom a) (hb : LegibleAtom b) (ht : Ends text)
    (ht' : Ends text') (h : (writeAtom a).toList ++ text = (writeAtom b).toList ++ text') :
    a = b ∧ text = text' := by
  have hunlike : ∀ {a s} {u v : List Char}, Plain a →
      a.toList ++ u ≠ (writeAtom (Text.quote s)).toList ++ v := by
    intro a s u v ha hne
    obtain ⟨c, cs, hc, hquote⟩ := head_writeAtom_quote s
    have hfirst : c ∈ (a.toList ++ u).head? := by
      rw [hne, hc]
      rfl
    have hplain := ha.head c hfirst
    rcases hquote with rfl | rfl <;> cases hplain
  cases ha with
  | plain ha =>
    rw [ha.writeAtom] at h
    cases hb with
    | plain hb =>
      rw [hb.writeAtom] at h
      have htake := congrArg (List.takeWhile isPlain) h
      rw [ha.takeWhile ht, hb.takeWhile ht'] at htake
      rw [htake] at h
      exact ⟨String.toList_inj.1 htake, List.append_cancel_left h⟩
    | quoted s' => exact absurd h (hunlike ha)
  | quoted s =>
    cases hb with
    | plain hb =>
      rw [hb.writeAtom] at h
      exact absurd h.symm (hunlike hb)
    | quoted s' =>
      obtain rfl := quoted_writeAtom_append_inj h
      exact ⟨rfl, List.append_cancel_left h⟩

theorem write_cons (x : Sexp) (xs : List Sexp) : (write (.list (x :: xs))).toList ++ text =
    '(' :: ((write x).toList ++ ((writeRest xs).toList ++ ')' :: text)) := by
  simp [write]

theorem writeRest_cons (x : Sexp) (xs : List Sexp) : (writeRest (x :: xs)).toList ++ text =
    ' ' :: ((write x).toList ++ ((writeRest xs).toList ++ text)) := by
  simp [writeRest]

/-- Behind an item of a list comes a space or a bracket. -/
theorem ends_writeRest (xs : List Sexp) : Ends ((writeRest xs).toList ++ ')' :: text) := by
  cases xs with
  | nil => exact .cons (.inr rfl)
  | cons x xs =>
    rw [writeRest_cons]
    exact .cons (.inl rfl)

theorem Legible.not_close {s : Sexp} (h : Legible s) : (write s).toList ++ text ≠ ')' :: text' := by
  intro hclose
  cases s with
  | atom a =>
    obtain ⟨c, cs, hc, -, hne⟩ := LegibleAtom.head h
    rw [write, hc] at hclose
    exact hne (List.cons.inj hclose).1
  | list xs => cases xs <;> simp [write] at hclose

mutual

/-- The text of an s-expression tells the s-expression and where it ends. -/
theorem write_append_inj : ∀ {s t : Sexp} {text text' : List Char}, Legible s → Legible t →
    Ends text → Ends text' → (write s).toList ++ text = (write t).toList ++ text' →
    s = t ∧ text = text'
  | .atom a, .atom b, text, text', hs, ht, hends, hends', h => by
    obtain ⟨rfl, htext⟩ := writeAtom_append_inj hs ht hends hends' h
    exact ⟨rfl, htext⟩
  | .atom a, .list ys, text, text', hs, _, _, _, h => by
    obtain ⟨c, cs, hc, hne, -⟩ := LegibleAtom.head hs
    rw [write, hc] at h
    cases ys <;> simp [write, hne] at h
  | .list xs, .atom b, text, text', _, ht, _, _, h => by
    obtain ⟨c, cs, hc, hne, -⟩ := LegibleAtom.head ht
    rw [write.eq_1 b, hc] at h
    cases xs <;> simp [write, hne.symm] at h
  | .list [], .list [], text, text', _, _, _, _, h => ⟨rfl, List.append_cancel_left h⟩
  | .list [], .list (y :: ys), text, text', _, ht, _, _, h => by
    rw [write_cons] at h
    exact absurd (List.cons.inj h).2.symm ht.1.not_close
  | .list (x :: xs), .list [], text, text', hs, _, _, _, h => by
    rw [write_cons] at h
    exact absurd (List.cons.inj h).2 hs.1.not_close
  | .list (x :: xs), .list (y :: ys), text, text', hs, ht, _, _, h => by
    rw [write_cons, write_cons] at h
    obtain ⟨rfl, hrest⟩ := write_append_inj hs.1 ht.1 (ends_writeRest xs) (ends_writeRest ys)
      (List.cons.inj h).2
    obtain ⟨rfl, htext⟩ := writeRest_append_inj hs.2 ht.2 hrest
    exact ⟨rfl, htext⟩

theorem writeRest_append_inj : ∀ {xs ys : List Sexp} {text text' : List Char}, AllLegible xs →
    AllLegible ys → (writeRest xs).toList ++ ')' :: text = (writeRest ys).toList ++ ')' :: text' →
    xs = ys ∧ text = text'
  | [], [], text, text', _, _, h => ⟨rfl, (List.cons.inj h).2⟩
  | [], y :: ys, text, text', _, _, h => by
    rw [writeRest_cons] at h
    exact absurd (List.cons.inj h).1 (by decide)
  | x :: xs, [], text, text', _, _, h => by
    rw [writeRest_cons] at h
    exact absurd (List.cons.inj h).1 (by decide)
  | x :: xs, y :: ys, text, text', hxs, hys, h => by
    rw [writeRest_cons, writeRest_cons] at h
    obtain ⟨rfl, hrest⟩ := write_append_inj hxs.1 hys.1 (ends_writeRest xs) (ends_writeRest ys)
      (List.cons.inj h).2
    obtain ⟨rfl, htext⟩ := writeRest_append_inj hxs.2 hys.2 hrest
    exact ⟨rfl, htext⟩

end

theorem write_inj {s t : Sexp} (hs : Legible s) (ht : Legible t) (h : write s = write t) : s = t :=
  (write_append_inj hs ht Ends.nil Ends.nil (by rw [h])).1

end Sexp

end Hoist
