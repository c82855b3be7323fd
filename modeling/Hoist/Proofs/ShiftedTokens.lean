import Hoist.Proofs.Lowering.InStep
import Hoist.Proofs.Lowering.Refusals

/-!
# What was issued before does not matter

A unit with a table of its own depends on the symbols that were issued before it in one way only: all
tokens of its table are greater by their number. It issues as many symbols as it does otherwise, and
where it fails, it fails in the same way.
-/

namespace Hoist.Lowering

open Hoist.Flat (Source)

variable {k : Nat} {opts opts' : Options} {log : String}

/-- The roots of two units with tables of their own, one of them with more symbols issued. -/
theorem rootState_later (hissued : opts'.issued = opts.issued + k) (ht : opts.table = .empty)
    (ht' : opts'.table = .empty) (log : String) :
    Later k (rootState opts log) (rootState opts' log) where
  issued := by
    change opts'.issued + 1 = opts.issued + 1 + k
    omega
  scopes := congrArg Prod.snd (Scopes.shift_root .empty)
  table := by
    change opts'.table = opts.table.shift k
    rw [ht, ht', Flat.Table.shift_empty]
  commits := rfl
  body := by
    change (⟨0, Flat.fresh opts'.issued "lambda" .global_, false, true, none, false, [], []⟩ : Body) =
      ⟨0, (Flat.fresh opts.issued "lambda" .global_).shift k, false, true, none, false, [], []⟩
    rw [hissued, Flat.fresh_shift]

/-- A module whose parts lie in the source. -/
theorem lowerModule_shifted {source : Source} {m : Surface.Module} (n k : Nat) (verbose : Bool)
    (log : String) (hspan : m.span.start ≤ source.text.length)
    (hbody : ∀ s ∈ m.body, s.Placed source.text.length) :
    (lowerModule m source { issued := n + k, verbose := verbose } log).result =
        (lowerModule m source { issued := n, verbose := verbose } log).result ∧
      (lowerModule m source { issued := n + k, verbose := verbose } log).table =
        (lowerModule m source { issued := n, verbose := verbose } log).table.shift k ∧
      (lowerModule m source { issued := n + k, verbose := verbose } log).issued =
        (lowerModule m source { issued := n, verbose := verbose } log).issued + k := by
  have hboth : Together k id
      (Lower.lowerEntry ⟨source, [], verbose⟩ m (rootState { issued := n, verbose := verbose } log))
      (Lower.lowerEntry ⟨source, [], verbose⟩ m (rootState { issued := n + k, verbose := verbose } log)) :=
    lowerEntry_inStep rfl m (rootState_later rfl rfl rfl log)
  have hlands : Lands source (Lower.lowerEntry ⟨source, [], verbose⟩ m)
      (rootState { issued := n, verbose := verbose } log) fun _ => True :=
    lowerEntry_lands rfl (rootState_root log rfl) hspan hbody
  obtain ⟨a, t, hr, hm⟩ | ⟨e, t, hr, hm⟩ := lowerModule_cases m source
    { issued := n, verbose := verbose } log <;>
  obtain ⟨a', t', hr', hm'⟩ | ⟨e', t', hr', hm'⟩ := lowerModule_cases m source
    { issued := n + k, verbose := verbose } log <;>
  rw [hr, hr'] at hboth <;>
  rw [hm, hm'] <;>
  cases hboth
  case inl.inl.ok ht => exact ⟨rfl, ht.table, ht.issued⟩
  case inr.inr.error he ht =>
    refine ⟨?_, ht.table, ht.issued⟩
    have hloc : e.Located source := Ends.of_error hlands hr
    cases he with
    | refl => rfl
    -- A symbol is never defined twice: what fails has a place, and this has none.
    | redefinition name name' =>
      obtain ⟨d, hd, -⟩ := hloc
      cases hd

/-- Whatever the text is, a unit over a table of its own that starts with `k` more symbols issued has the
same result or the same failure, the same table but for the tokens, which are shifted by `k`, and issues
as many symbols. -/
theorem lowerSource_shifted (source : Source) (n k : Nat) (verbose : Bool) :
    (lowerSource source { issued := n + k, verbose := verbose }).result =
        (lowerSource source { issued := n, verbose := verbose }).result ∧
      (lowerSource source { issued := n + k, verbose := verbose }).table =
        (lowerSource source { issued := n, verbose := verbose }).table.shift k ∧
      (lowerSource source { issued := n + k, verbose := verbose }).issued =
        (lowerSource source { issued := n, verbose := verbose }).issued + k := by
  have hread := Surface.readModule_settles source.text
  unfold lowerSource
  cases hm : Surface.readModule source.text with
  | error fault => exact ⟨rfl, rfl, rfl⟩
  | ok m =>
    obtain ⟨hspan, hbody⟩ := hread.ok m hm
    exact lowerModule_shifted n k verbose _ hspan hbody

end Hoist.Lowering
