import Hoist.Proofs.Lowering.Entry

/-!
# The supported subset

What can be lowered is what a check of the tree accepts, which knows nothing of symbols, frames and
tables. In the branches of a conditional it counts the names they leave behind: a conditional inside
them that returns on both sides leaves none.
-/

namespace Hoist.Lowering

open Hoist.Flat (Source)
open Hoist.Surface (blockAssigns blockTargets readModule)

/-- A text is lowered exactly if it can be read and its module is accepted. -/
theorem lowerSource_succeeds_iff (source : Source) (issued : Nat) (verbose : Bool) :
    (∃ entry, (lowerSource source { issued := issued, verbose := verbose }).result = .ok entry) ↔
      ∃ m, readModule source.text = .ok m ∧ m.accepts blockAssigns = true := by
  unfold lowerSource
  cases hm : readModule source.text with
  | error fault => simp
  | ok m =>
    simp only [Except.ok.injEq, exists_eq_left']
    exact lowerModule_succeeds rfl rfl m source _

/-- A function whose branches all return, one of them after an assignment. -/
def assigningBeforeReturn : Source where
  serial := 0
  url := "test.py"
  firstLine := 1
  text := ("def f(c, d):\n    if c:\n        if d:\n            x = 1\n            return x\n" ++
    "        else:\n            x = 2\n            return x\n    else:\n        return 0\n").toList

set_option maxRecDepth 20000 in
/-- A check that counts all names the branches assign is too strict. -/
theorem blockTargets_too_strict :
    ¬ ((∃ entry, (lowerSource assigningBeforeReturn {}).result = .ok entry) ↔
      ∃ m, readModule assigningBeforeReturn.text = .ok m ∧ m.accepts blockTargets = true) := by
  have hlow : ∃ entry, (lowerSource assigningBeforeReturn {}).result = .ok entry := by
    have h : (lowerSource assigningBeforeReturn {}).result.toBool = true := by decide +kernel
    cases he : (lowerSource assigningBeforeReturn {}).result with
    | ok entry => exact ⟨entry, rfl⟩
    | error fault =>
      rw [he] at h
      cases h
  have hcheck : (readModule assigningBeforeReturn.text).toOption.any (·.accepts blockTargets) = false := by
    decide +kernel
  intro h
  obtain ⟨m, hm, haccepts⟩ := h.1 hlow
  rw [hm] at hcheck
  simp [Except.toOption, haccepts] at hcheck

end Hoist.Lowering
