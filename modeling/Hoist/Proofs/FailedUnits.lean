import Hoist.Proofs.Lowering.Aftermath
import Hoist.Proofs.Lowering.Entry

/-!
# What a failed unit leaves behind

Lambdas are defined one by one as the functions, branches and loops inside the entry are lifted, and
nothing is taken back when lowering stops later. So a shared table may have grown behind a failure: by
lambdas that are known by symbols issued on the way, but never by the entry itself.
-/

namespace Hoist.Lowering

open Hoist.Flat (Source Lambda)
open Hoist.Surface (Module Stmt)

variable {source : Source} {opts : Options} {log : String}

/-- The root of a unit keeps what was there before when the entry fails. -/
theorem lowerEntry_fails {env : Env} {m : Module} {s t : State} {e : Failure}
    (htop : s.body.topLevel = true) (h : Fails (Lower.lowerEntry env m) s e t) : Leaves s t := by
  unfold Lower.lowerEntry at h
  split at h
  · rename_i st hm
    split at h
    · rename_i sp name params body decorators
      simp only [Lower.lowerStmt] at h
      rcases Fails.bind_iff.1 h with h | ⟨_, _, -, h⟩
      · exact lowerFunction_fails (lowerBlock_tame env body) htop h
      · exact absurd h Fails.pure_iff
    · exact (Tame.refuse _ _).of_fails h
  · exact (Tame.refuse _ _).of_fails h

/-- The lambdas that a unit has added to its table. -/
structure Grown (opts : Options) (out : Outcome) (left : List Lambda) : Prop where
  table : out.table.lambdas = opts.table.lambdas ++ left
  refs : ∀ l ∈ left, opts.issued < l.ref.token ∧ l.ref.token ≤ out.issued

theorem lowerModule_failed {m : Module} {e : UnitError}
    (h : (lowerModule m source opts log).result = .error e) :
    (∃ failure, e = .failed failure) ∧ ∃ left, Grown opts (lowerModule m source opts log) left := by
  obtain ⟨entry, t, -, hm⟩ | ⟨failure, t, hr, hm⟩ := lowerModule_cases m source opts log
  · rw [hm] at h
    cases h
  · rw [hm] at h ⊢
    have hleaves : Leaves (rootState opts log) t := lowerEntry_fails rfl hr
    obtain ⟨left, htable, hrefs⟩ := hleaves.lambdas
    cases h
    exact ⟨⟨failure, rfl⟩, left, htable, fun l hl => ⟨Nat.lt_of_succ_lt (hrefs l hl).1, (hrefs l hl).2⟩⟩

/-- Behind any failure the table holds what it held before and then only lambdas under symbols that
the unit issued; behind a text that cannot be read it holds nothing more. -/
theorem lowerSource_failed {e : UnitError} (h : (lowerSource source opts).result = .error e) :
    ∃ left, Grown opts (lowerSource source opts) left ∧
      ((∃ fault, e = .unreadable fault) → left = []) := by
  unfold lowerSource at h ⊢
  cases hm : Surface.readModule source.text with
  | error fault => exact ⟨[], ⟨by simp, fun l hl => by cases hl⟩, fun _ => rfl⟩
  | ok m =>
    simp only [hm] at h ⊢
    obtain ⟨⟨failure, rfl⟩, left, hgrown⟩ := lowerModule_failed h
    exact ⟨left, hgrown, fun ⟨fault, hfault⟩ => by cases hfault⟩

/-- A function whose inner function is lifted before its last line is refused. -/
def keywordAtTheEnd : Source where
  serial := 0
  url := "test.py"
  firstLine := 1
  text := "def f(x):\n    def g(y):\n        return x + y\n    return g(k=1)\n".toList

theorem keywordAtTheEnd_failed :
    ∃ e, (lowerSource keywordAtTheEnd {}).result = .error e := by
  have h : (match (lowerSource keywordAtTheEnd {}).result with
    | .ok _ => false
    | .error _ => true) = true := by decide +kernel
  split at h
  · cases h
  · exact ⟨_, ‹_›⟩

/-- The inner function stays in the table. -/
theorem keywordAtTheEnd_left :
    (∃ e, (lowerSource keywordAtTheEnd {}).result = .error e) ∧ ∃ left,
      left.length = 1 ∧ Grown {} (lowerSource keywordAtTheEnd {}) left := by
  have hlength : (lowerSource keywordAtTheEnd {}).table.lambdas.length = 1 := by decide +kernel
  obtain ⟨e, he⟩ := keywordAtTheEnd_failed
  obtain ⟨left, hgrown, -⟩ := lowerSource_failed he
  refine ⟨⟨e, he⟩, left, ?_, hgrown⟩
  rw [hgrown.table] at hlength
  simpa [Flat.Table.empty] using hlength

/-- A failed unit need not leave its table as it was. -/
theorem failed_unit_not_undone : ¬ ∀ source opts e, (lowerSource source opts).result = .error e →
    (lowerSource source opts).table.lambdas = opts.table.lambdas := by
  intro h
  obtain ⟨e, he⟩ := keywordAtTheEnd_failed
  have hlength : (lowerSource keywordAtTheEnd {}).table.lambdas.length = 1 := by decide +kernel
  rw [h keywordAtTheEnd {} e he] at hlength
  cases hlength

end Hoist.Lowering
