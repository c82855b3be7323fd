import Mathlib.Data.List.Induction
import Hoist.Proofs.Memo.Courses

/-!
# Which maps share a cache

A merge turns the second map to the cache of the first one, and no other map with it. So maps that
merges connect share one cache as long as every merge finds nobody else at the cache that it gives up.
Maps that share a cache know the same keys, and neither computes a key that the other one was asked
for, whatever happens to them later.
-/

namespace Hoist.Memo

open World Relation

variable {κ ε ρ : Type}

section Links

variable {acts more : List (Action κ ε ρ)} {x y : Nat}

theorem Joined.symm (h : Joined acts x y) : Joined acts y x := Or.symm h

theorem Joined.append (h : Joined acts x y) : Joined (acts ++ more) x y :=
  h.imp (List.mem_append_left _) (List.mem_append_left _)

theorem joined_concat {act : Action κ ε ρ} :
    Joined (acts ++ [act]) x y ↔ Joined acts x y ∨ act = .merge x y ∨ act = .merge y x := by
  simp only [Joined, List.mem_append, List.mem_singleton, eq_comm (b := act)]
  tauto

end Links

section Steps

variable [BEq κ] [Ord κ] {u v : World κ ε ρ} {a b x y : Nat} {act : Action κ ε ρ}

/-- Behind a merge, the second map stands where the first one does. -/
theorem share_merge (ha : a < u.maps.length) (hb : b < u.maps.length) :
    (u.merge a b).Share x y ↔ u.Share (if x = b then a else x) (if y = b then a else y) := by
  simp only [Share, pointer_merge ha hb]
  split <;> split <;> rfl

/-- A merge that leaves nobody behind keeps together who is together. -/
theorem share_merge_of_share (ha : a < u.maps.length) (hb : b < u.maps.length)
    (hnone : ∀ z, ¬ u.LeftBehind a b z) (h : u.Share x y) : (u.merge a b).Share x y := by
  have along {z : Nat} (hz : u.Share z b) : z = b ∨ u.Share z a := by
    by_contra hnot
    obtain ⟨hne, hapart⟩ := not_or.1 hnot
    exact hnone z ⟨hne, hz, hapart⟩
  rw [share_merge ha hb]
  by_cases hx : x = b
  · by_cases hy : y = b
    · simpa [hx, hy] using share_self ha
    · subst hx
      simpa [hy] using ((along h.symm).resolve_left hy).symm
  · by_cases hy : y = b
    · subst hy
      simpa [hx] using (along h).resolve_left hx
    · simpa [hx, hy] using h

end Steps

variable [BEq κ] [LawfulBEq κ] [Ord κ] [Std.LawfulEqOrd κ] [Std.TransOrd κ]
  {rules : List (κ → Plan κ ε ρ ρ)} {depth : Nat} {acts : List (Action κ ε ρ)} {u v w : World κ ε ρ}

/-- Maps that share a cache are connected. -/
theorem connected_of_share {x y : Nat} (h : (ofRules rules).course depth acts = some u)
    (hshare : u.Share x y) : ReflTransGen (Joined acts) x y := by
  induction acts using List.reverseRecOn generalizing u x y with
  | nil =>
    obtain rfl := course_nil.1 h
    obtain ⟨c, hx, hy⟩ := hshare
    rw [(pointer_ofRules.1 hx).2, (pointer_ofRules.1 hy).2]
  | append_singleton before act ih =>
    obtain ⟨v, hv, hact⟩ := course_concat.1 h
    have hmono {p q : Nat} (hpq : v.Share p q) : ReflTransGen (Joined (before ++ [act])) p q :=
      ReflTransGen.mono (fun _ _ hjoined => hjoined.append) _ _ (ih hv hpq)
    cases ((Fit.ofRules rules).course hv).acts hact with
    | call h | subscribe h => exact hmono (h.share.1 hshare)
    | @merge a b ha hb =>
      have hjoined : Joined (before ++ [.merge a b]) a b := joined_concat.2 (.inr (.inl rfl))
      -- the second map reaches the place where it stands now by the merge itself
      have hturn (z : Nat) :
          ReflTransGen (Joined (before ++ [.merge a b])) z (if z = b then a else z) ∧
            ReflTransGen (Joined (before ++ [.merge a b])) (if z = b then a else z) z := by
        by_cases hz : z = b
        · subst hz
          simpa using ⟨ReflTransGen.single hjoined.symm, ReflTransGen.single hjoined⟩
        · simpa [hz] using ReflTransGen.refl
      have hmid := hmono ((share_merge ha hb).1 hshare)
      exact ((hturn x).1.trans hmid).trans (hturn y).2

/-- As long as no merge leaves a map behind, maps that a merge joins share a cache. -/
theorem share_of_joined {x y : Nat} (h : (ofRules rules).course depth acts = some u)
    (hnone : ∀ before a b rest, before ++ .merge a b :: rest = acts →
      ∀ v, (ofRules rules).course depth before = some v → ∀ x, ¬ v.LeftBehind a b x)
    (hjoined : Joined acts x y) : u.Share x y := by
  induction acts using List.reverseRecOn generalizing u x y with
  | nil => simp [Joined] at hjoined
  | append_singleton before act ih =>
    obtain ⟨v, hv, hact⟩ := course_concat.1 h
    have hbefore {p q : Nat} (hpq : Joined before p q) : v.Share p q := by
      refine ih hv (fun front a b rest heq => hnone front a b (rest ++ [act]) ?_) hpq
      rw [← heq, List.append_assoc, List.cons_append]
    cases ((Fit.ofRules rules).course hv).acts hact with
    | call h | subscribe h =>
      refine h.share.2 (hbefore ?_)
      simpa [joined_concat] using hjoined
    | @merge a b ha hb =>
      have hstay : v.Share x y → (v.merge a b).Share x y :=
        share_merge_of_share ha hb (hnone before a b [] rfl v hv)
      have hab : (v.merge a b).Share a b := by
        rw [share_merge ha hb]
        simpa using share_self ha
      rcases joined_concat.1 hjoined with hjoined | heq | heq
      · exact hstay (hbefore hjoined)
      · cases heq
        exact hab
      · cases heq
        exact hab.symm

/-- In a course, connected maps share a cache at any time if and only if no merge leaves a map behind.
Maps that share a cache know the same keys, and from then on neither of them computes a key that the
other one knew. -/
theorem connected_share_iff (h : (ofRules rules).course depth acts = some w) :
    ((∀ before rest, before ++ rest = acts → ∀ u, (ofRules rules).course depth before = some u →
        ∀ x y, Connected before x y → u.Share x y) ↔
      ∀ before a b rest, before ++ .merge a b :: rest = acts →
        ∀ u, (ofRules rules).course depth before = some u → ∀ x, ¬ u.LeftBehind a b x) ∧
    ∀ before rest, before ++ rest = acts → ∀ u, (ofRules rules).course depth before = some u →
      ∃ since, w.computed = u.computed ++ since ∧
        ∀ x y, u.Share x y → u.size x = u.size y ∧
          ∀ key, u.contains x key = u.contains y key ∧
            ((x, key) ∈ u.computed → u.contains x key) ∧
            (u.contains x key → (y, key) ∉ since) := by
  refine ⟨⟨fun hall before a b rest heq u hu x => ?_, fun hnone before rest heq u hu x y hxy => ?_⟩,
    fun before rest heq u hu => ?_⟩
  · -- the map left behind is connected to the first one through the second, and shares with neither
    rintro ⟨hxb, hshare, hapart⟩
    obtain ⟨v, hmerge, -⟩ := course_cons.1 (course_rest h heq hu)
    have hv : (ofRules rules).course depth (before ++ [.merge a b]) = some v :=
      course_concat.2 ⟨u, hu, hmerge⟩
    have hxa : Connected (before ++ [.merge a b]) x a :=
      .tail' (ReflTransGen.mono (fun _ _ hjoined => hjoined.append) _ _ (connected_of_share hu hshare))
        (joined_concat.2 (.inr (.inr rfl)))
    have hshared := hall (before ++ [.merge a b]) rest (by simpa using heq) v hv x a hxa
    cases ((Fit.ofRules rules).course hu).acts hmerge with
    | merge ha hb =>
      rw [share_merge ha hb] at hshared
      exact hapart (by simpa [hxb] using hshared)
  · have hedge {p q : Nat} (hpq : Joined before p q) : u.Share p q := by
      refine share_of_joined hu (fun front a b back heq' => ?_) hpq
      refine hnone front a b (back ++ rest) ?_
      rw [← heq, ← heq', List.append_assoc, List.cons_append]
    induction hxy with
    | single hpq => exact hedge hpq
    | tail _ hpq ih => exact ih.trans (hedge hpq)
  · have hfit := (Fit.ofRules rules).course hu
    obtain ⟨c, r, hbefore⟩ := course_grows (Fit.ofRules rules) hu
    obtain ⟨since, r', hgrows⟩ := course_grows hfit (course_rest h heq hu)
    refine ⟨since, hgrows.computed_eq, fun x y hshare => ⟨?_, fun key => ⟨?_, fun hmem => ?_, ?_⟩⟩⟩
    · rw [size, size, hshare.cacheOf_eq]
    · rw [contains, contains, hshare.cacheOf_eq]
    · rw [hbefore.computed_eq] at hmem
      exact hbefore.asked x key (by simpa [ofRules] using hmem)
    · rw [contains, hshare.cacheOf_eq]
      exact fun hknown hmem => hgrows.unknown y key hmem hknown

/-- Three maps of numbers to their squares. -/
def squares : World Nat String Nat :=
  ofRules (List.replicate 3 fun key => .done (key * key))

/-- Both maps that turn to the first one know what one of them is asked for. -/
theorem squares_shared : ∃ w, squares.course 1 [.merge 0 1, .merge 0 2, .call 1 5] = some w ∧
    w.size 1 = w.size 2 ∧ w.contains 1 5 = w.contains 2 5 := by
  have h : squares.course 1 [.merge 0 1, .merge 0 2, .call 1 5] = some _ := rfl
  obtain ⟨_, -, hagree⟩ := (connected_share_iff h).2 _ [] (List.append_nil _) _ h
  obtain ⟨hsize, hknown⟩ := hagree 1 2 ⟨0, rfl, rfl⟩
  exact ⟨_, h, hsize, (hknown 5).1⟩

/-- The second map turns away from the cache that the last one has just turned to. -/
def turningAway : List (Action Nat String Nat) := [.merge 1 2, .merge 0 1, .call 0 5]

/-- The last map is connected to the first one, and does not know the key that this is asked for. -/
theorem square_left_behind : Connected turningAway 0 2 ∧ ∃ w, squares.course 1 turningAway = some w ∧
    w.contains 0 5 = true ∧ w.contains 2 5 = false := by
  have hfirst : Joined turningAway 0 1 := by simp [Joined, turningAway]
  have hlast : Joined turningAway 1 2 := by simp [Joined, turningAway]
  exact ⟨.head hfirst (.single hlast), _, rfl, by decide, by decide⟩

end Hoist.Memo
