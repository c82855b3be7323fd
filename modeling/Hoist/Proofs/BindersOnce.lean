import Hoist.Proofs.Lowering.Holdings

/-!
# Binders are unique across units

Units that take their symbols from one supply, one after the other, bind no symbol twice: neither in one
lambda, nor in two lambdas of one table or of two, and whether the units came to their ends or failed on
the way. Only a loop and its `continue` have their parameters in common.
-/

namespace Hoist.Lowering

open Hoist.Flat (Symbol Source Table Lambda Issued Owns BindOnce)

/-- A text to be lowered into the shared table or into one of its own, with a log or without. -/
structure Request where
  source : Source
  sharesTable : Bool
  verbose : Bool

/-- Units that take their symbols from one supply: the number of symbols issued, the table that units
may share, and the tables of the other units. -/
structure Supply where
  issued : Nat := 0
  shared : Table := .empty
  own : List Table := []

namespace Supply

/-- One more unit, whether it succeeds or not. -/
def lower (s : Supply) (r : Request) : Supply :=
  if r.sharesTable then
    let out := lowerSource r.source { issued := s.issued, table := s.shared, verbose := r.verbose }
    { s with issued := out.issued, shared := out.table }
  else
    let out := lowerSource r.source { issued := s.issued, verbose := r.verbose }
    { s with issued := out.issued, own := s.own ++ [out.table] }

/-- Units one after the other. -/
def lowerAll (s : Supply) (rs : List Request) : Supply := rs.foldl lower s

/-- The lambdas of all tables. -/
def lambdas (s : Supply) : List Lambda := s.shared.lambdas ++ s.own.flatMap (·.lambdas)

/-- The lambdas own symbols that were issued one by one. -/
structure Accounted (s : Supply) : Prop where
  owns : ∃ S T, Owns s.shared.lambdas S ∧ Owns (s.own.flatMap (·.lambdas)) T ∧
    Issued 0 s.issued (S ++ T)
  refers : ∀ l ∈ s.lambdas, ∀ a ∈ l.body.refers, a.token ≤ s.issued

variable {s : Supply}

theorem Accounted.start : Accounted {} where
  owns := ⟨[], [], .nil, .nil, .nil⟩
  refers l hl := by cases hl

/-- What a unit adds is accounted for by the symbols that it issued itself. -/
theorem Accounted.lower (h : Accounted s) (r : Request) : Accounted (s.lower r) := by
  obtain ⟨S, T, hS, hT, his⟩ := h.owns
  have hold : ∀ {n : Nat}, s.issued ≤ n → ∀ l ∈ s.lambdas, ∀ a ∈ l.body.refers, a.token ≤ n :=
    fun hn l hl a ha => Nat.le_trans (h.refers l hl a ha) hn
  unfold Supply.lower
  split
  · obtain ⟨L, U, hadds⟩ := lowerSource_contributes
      { issued := s.issued, table := s.shared, verbose := r.verbose } rfl r.source
    have hL := hadds.lambdas
    constructor
    · refine ⟨S ++ U, T, hL ▸ hS.append hadds.owns, hT, ?_⟩
      refine (his.append hadds.symbols (Nat.zero_le _) hadds.issued).weaken (Nat.le_refl _)
        fun k => ?_
      simp only [Flat.tally_append]
      omega
    · intro l hl
      simp only [lambdas, hL, List.mem_append] at hl
      rcases hl with (hl | hl) | hl
      · exact hold hadds.issued l (List.mem_append_left _ hl)
      · exact hadds.refers l hl
      · exact hold hadds.issued l (List.mem_append_right _ hl)
  · obtain ⟨L, U, hadds⟩ := lowerSource_contributes
      { issued := s.issued, verbose := r.verbose } rfl r.source
    have hL := hadds.lambdas
    have hown : ((s.own ++ [(lowerSource r.source
        { issued := s.issued, verbose := r.verbose }).table]).flatMap (·.lambdas)) =
        s.own.flatMap (·.lambdas) ++ L := by
      rw [List.flatMap_append, List.flatMap_singleton, hL]
      rfl
    constructor
    · refine ⟨S, T ++ U, hS, by rw [hown]; exact hT.append hadds.owns, ?_⟩
      rw [← List.append_assoc]
      exact his.append hadds.symbols (Nat.zero_le _) hadds.issued
    · intro l hl
      simp only [lambdas, hown, List.mem_append] at hl
      rcases hl with hl | hl | hl
      · exact hold hadds.issued l (List.mem_append_left _ hl)
      · exact hold hadds.issued l (List.mem_append_right _ hl)
      · exact hadds.refers l hl

theorem Accounted.lowerAll (h : Accounted s) (rs : List Request) : Accounted (s.lowerAll rs) := by
  induction rs generalizing s with
  | nil => exact h
  | cons r rs ih => exact ih (h.lower r)

theorem Accounted.bindOnce (h : Accounted s) : BindOnce s.lambdas s.issued := by
  obtain ⟨S, T, hS, hT, his⟩ := h.owns
  exact (hS.append hT).bindOnce his h.refers

/-- Whatever texts are lowered over one supply of symbols, and whatever becomes of them, all their
lambdas together bind each symbol once. -/
theorem lowerAll_bindOnce (rs : List Request) :
    BindOnce (lowerAll {} rs).lambdas (lowerAll {} rs).issued :=
  (Accounted.start.lowerAll rs).bindOnce

end Supply

end Hoist.Lowering
