import Hoist.Flat.Table
import Mathlib.Data.List.Induction

/-!
# What calls leave in a table

A symbol is known by its number or by its space and name, so symbols that are one variable are
interchangeable as names of lambdas. Of the calls that define lambdas under one name the first
succeeds, and its lambda is the one that is found.
-/

namespace Hoist.Flat

namespace Symbol

variable {a b : Symbol}

/-- What a symbol is known by: its number if it was generated, otherwise its space and name. -/
def identity (a : Symbol) : Nat ⊕ Space × String :=
  if a.isGenerated then .inl a.token else .inr (a.space, a.name)

theorem same_iff_identity : a.same b = true ↔ a.identity = b.identity := by
  unfold same identity
  cases ha : a.isGenerated <;> cases hb : b.isGenerated
  -- a number tells a generated symbol from all others
  case false.true =>
    simp only [isGenerated, bne_eq_false_iff_eq, bne_iff_ne] at ha hb
    simp [ha, hb.symm]
  case true.false =>
    simp only [isGenerated, bne_eq_false_iff_eq, bne_iff_ne] at ha hb
    simp [ha, hb]
  all_goals simp

/-- To be one variable is an equivalence. -/
theorem same_equivalence : Equivalence fun a b : Symbol => a.same b = true := by
  simp only [same_iff_identity]
  exact ⟨fun _ => rfl, Eq.symm, Eq.trans⟩

end Symbol

namespace Table

/-- The table that some calls leave, made one after the other; one that fails has no effect. -/
def made (calls : List Lambda) : Table := calls.foldl (fun t l => (t.define? l).getD t) empty

/-- The lambdas of the calls that succeed, in the order of the calls. -/
def accepted (t : Table) : List Lambda → List Lambda
  | [] => []
  | l :: calls =>
    match t.define? l with
    | some u => l :: u.accepted calls
    | none => t.accepted calls

/-- The lambda that was to be defined first under a name. -/
def firstNamed (calls : List Lambda) (s : Symbol) : Option Lambda := calls.find? (·.ref.same s)

variable {t : Table} {l : Lambda} {s : Symbol} {calls : List Lambda}

theorem define?_of_taken (h : t.contains l.ref = true) : t.define? l = none := if_pos h

theorem define?_of_free (h : t.contains l.ref = false) : t.define? l = some ⟨t.lambdas ++ [l]⟩ :=
  if_neg (by simp [h])

theorem contains_eq_isSome : t.contains s = (t.find? s).isSome :=
  List.isSome_find?.symm

/-- A name that a table does not have yet is unlike all those that it has. -/
theorem pairwise_of_free (h : t.lambdas.Pairwise fun l m => l.ref.same m.ref = false)
    (hfree : t.contains l.ref = false) :
    (t.lambdas ++ [l]).Pairwise fun l m => l.ref.same m.ref = false := by
  refine List.pairwise_append.2 ⟨h, List.pairwise_singleton _ _, fun m hm k hk => ?_⟩
  obtain rfl := List.mem_singleton.1 hk
  simpa using List.any_eq_false.1 hfree m hm

/-- A lambda with a free name is the first and only one that has it. -/
theorem findIdx?_of_free (hfree : t.contains l.ref = false) (s : Symbol) :
    (t.lambdas ++ [l]).findIdx? (·.ref.same s) =
      if l.ref.same s then some t.lambdas.length else t.lambdas.findIdx? (·.ref.same s) := by
  rw [List.findIdx?_append]
  cases hs : l.ref.same s with
  | false => simp [hs]
  | true =>
    have hnone : t.lambdas.findIdx? (·.ref.same s) = none := by
      refine List.findIdx?_eq_none_iff.2 fun d hd => Bool.eq_false_iff.2 fun hsame => ?_
      exact List.any_eq_false.1 hfree d hd
        (Symbol.same_equivalence.trans hsame (Symbol.same_equivalence.symm hs))
    simp [hnone, hs]

theorem made_snoc : made (calls ++ [l]) = ((made calls).define? l).getD (made calls) := by
  rw [made, List.foldl_append]
  rfl

/-- A name is found where the first of the calls that have it defines it. -/
theorem find?_made : (made calls).find? s = firstNamed calls s := by
  unfold firstNamed
  induction calls using List.reverseRecOn with
  | nil => rfl
  | append_singleton calls l ih =>
    rw [made_snoc, List.find?_append, ← ih]
    cases hl : (made calls).contains l.ref with
    | false =>
      rw [define?_of_free hl]
      exact List.find?_append
    | true =>
      rw [define?_of_taken hl, Option.getD_none]
      cases hs : l.ref.same s with
      | false => simp [hs]
      | true =>
        -- a call before has the same name, which is found already
        obtain ⟨d, hd, hsame⟩ := List.any_eq_true.1 hl
        have hfound : ((made calls).find? s).isSome = true :=
          List.find?_isSome.2 ⟨d, hd, Symbol.same_equivalence.trans hsame hs⟩
        rw [Option.or_of_isSome hfound]

theorem contains_made : (made calls).contains s = calls.any (·.ref.same s) := by
  rw [contains_eq_isSome, find?_made, firstNamed, List.isSome_find?]

theorem made_pairwise :
    (made calls).lambdas.Pairwise fun l m => l.ref.same m.ref = false := by
  induction calls using List.reverseRecOn with
  | nil => exact .nil
  | append_singleton calls l ih =>
    rw [made_snoc]
    cases hl : (made calls).contains l.ref with
    | false =>
      rw [define?_of_free hl]
      exact pairwise_of_free ih hl
    | true =>
      rw [define?_of_taken hl]
      exact ih

theorem foldl_define? (calls : List Lambda) (t : Table) :
    (calls.foldl (fun t l => (t.define? l).getD t) t).lambdas = t.lambdas ++ t.accepted calls := by
  induction calls generalizing t with
  | nil => exact (List.append_nil _).symm
  | cons l calls ih =>
    rw [List.foldl_cons, ih, accepted]
    cases hl : t.contains l.ref with
    | false => rw [define?_of_free hl]; simp
    | true => rw [define?_of_taken hl]; rfl

/-- A table lists the lambdas of the calls that succeeded. -/
theorem lambdas_made : (made calls).lambdas = empty.accepted calls := foldl_define? calls empty

end Table

end Hoist.Flat
