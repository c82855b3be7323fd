import Hoist.Proofs.Memo.Worlds

/-!
# Courses

Every action that comes to its end is a call or a subscription, whose steps are known, or a merge.
Along a course every map keeps what it knows: a key that it was asked for is never computed through it
again, and the values that are recorded through it are those of keys it did not know before.
-/

namespace Hoist.Memo

open World

variable {κ ε ρ : Type} [BEq κ] [Ord κ]

variable {u v w w' : World κ ε ρ} {depth m : Nat} {act : Action κ ε ρ}

/-- What an action does when it comes to its end. -/
inductive Acts (w : World κ ε ρ) : Action κ ε ρ → World κ ε ρ → Prop
  | call {m : Nat} {key : κ} {t : Traffic κ ε ρ} {f : List (Nat × κ)} {w' : World κ ε ρ}
      (h : Used w m [] t f w') : Acts w (.call m key) w'
  | subscribe {m : Nat} {react : κ → ρ → Plan κ ε ρ Unit} {t : Traffic κ ε ρ}
      {f : List (Nat × κ)} {w' : World κ ε ρ}
      (h : Used w m [⟨w.numbers.length, react⟩] t f w') : Acts w (.subscribe m react) w'
  | merge {a b : Nat} (ha : a < w.maps.length) (hb : b < w.maps.length) :
      Acts w (.merge a b) (w.merge a b)

omit [BEq κ] [Ord κ] in
theorem ends_of_ended {α : Type} {x : Run κ ε ρ α}
    (h : (ended (x w)).map (·.2) = some w') : ∃ r, Ends x w r w' := by
  obtain ⟨⟨r, v⟩, hx, rfl⟩ := Option.map_eq_some_iff.1 h
  exact ⟨r, hx⟩

theorem World.Fit.acts (h : w.Fit) (hafter : w.after depth act = some w') : Acts w act w' := by
  cases act with
  | call m key =>
    obtain ⟨r, hends⟩ := ends_of_ended hafter
    obtain ⟨t, f, hused⟩ := h.call hends
    exact .call hused
  | subscribe m react =>
    simp only [after, Option.ite_none_right_eq_some] at hafter
    obtain ⟨hm, hafter⟩ := hafter
    obtain ⟨r, hends⟩ := ends_of_ended hafter
    obtain ⟨t, f, hused⟩ := h.subscribe hm rfl hends
    exact .subscribe hused
  | merge a b =>
    simp only [after, Option.ite_none_right_eq_some, Option.some.injEq] at hafter
    obtain ⟨⟨ha, hb⟩, rfl⟩ := hafter
    exact .merge ha hb

theorem course_nil : w.course depth [] = some w' ↔ w' = w := by
  simp [course, eq_comm]

theorem course_cons {acts : List (Action κ ε ρ)} :
    w.course depth (act :: acts) = some w' ↔
      ∃ v, w.after depth act = some v ∧ v.course depth acts = some w' := by
  simp [course, Option.bind_eq_some_iff]

theorem course_append {acts more : List (Action κ ε ρ)} :
    w.course depth (acts ++ more) = some w' ↔
      ∃ v, w.course depth acts = some v ∧ v.course depth more = some w' := by
  simp [course, List.foldlM_append, Option.bind_eq_some_iff]

theorem course_concat {acts : List (Action κ ε ρ)} :
    w.course depth (acts ++ [act]) = some w' ↔
      ∃ v, w.course depth acts = some v ∧ v.after depth act = some w' := by
  simp [course_append, course_cons, course_nil]

/-- What a course does from one of its worlds on. -/
theorem course_rest {acts before rest : List (Action κ ε ρ)} (h : w.course depth acts = some v)
    (heq : before ++ rest = acts) (hu : w.course depth before = some u) :
    u.course depth rest = some v := by
  subst heq
  obtain ⟨u', hu', hrest⟩ := course_append.1 h
  obtain rfl : u = u' := Option.some.inj (hu.symm.trans hu')
  exact hrest

/-- What a stretch of a course adds to what is known: the keys that were computed in it and the values
that were recorded, each of a key that its map did not know. -/
structure Grows (u w : World κ ε ρ) (computed : List (Nat × κ)) (recorded : List (Nat × κ × ρ)) :
    Prop where
  computed_eq : w.computed = u.computed ++ computed
  recorded_eq : w.recorded = u.recorded ++ recorded
  known : ∀ x key, u.contains x key → w.contains x key
  held : ∀ x, (u.cacheOf x).results.map Prod.fst ⊆ (w.cacheOf x).results.map Prod.fst
  unknown : ∀ x key, (x, key) ∈ computed → ¬ u.contains x key
  asked : ∀ x key, (x, key) ∈ computed → w.contains x key
  computes : ∀ x key value, (x, key, value) ∈ recorded → (x, key) ∈ computed
  keeps : ∀ x, (noted x recorded).map Prod.fst ⊆ (w.cacheOf x).results.map Prod.fst
  once : ∀ x, ((noted x recorded).map Prod.fst).Nodup

omit [Ord κ] in
theorem Grows.refl (w : World κ ε ρ) : Grows w w [] [] where
  computed_eq := (List.append_nil _).symm
  recorded_eq := (List.append_nil _).symm
  known _ _ h := h
  held _ := List.Subset.refl _
  unknown _ _ h := by cases h
  asked _ _ h := by cases h
  computes _ _ _ h := by cases h
  keeps _ := List.nil_subset _
  once _ := .nil

omit [Ord κ] in
theorem Grows.trans {c c' : List (Nat × κ)} {r r' : List (Nat × κ × ρ)} (h : Grows u v c r)
    (h' : Grows v w c' r') : Grows u w (c ++ c') (r ++ r') where
  computed_eq := by rw [h'.computed_eq, h.computed_eq, List.append_assoc]
  recorded_eq := by rw [h'.recorded_eq, h.recorded_eq, List.append_assoc]
  known x key hu := h'.known x key (h.known x key hu)
  held x := List.Subset.trans (h.held x) (h'.held x)
  unknown x key hmem := by
    rcases List.mem_append.1 hmem with hmem | hmem
    · exact h.unknown x key hmem
    · exact fun hu => h'.unknown x key hmem (h.known x key hu)
  asked x key hmem := by
    rcases List.mem_append.1 hmem with hmem | hmem
    · exact h'.known x key (h.asked x key hmem)
    · exact h'.asked x key hmem
  computes x key value hmem := by
    rcases List.mem_append.1 hmem with hmem | hmem
    · exact List.mem_append_left _ (h.computes x key value hmem)
    · exact List.mem_append_right _ (h'.computes x key value hmem)
  keeps x := by
    rw [noted_append, List.map_append]
    exact List.append_subset.2 ⟨List.Subset.trans (h.keeps x) (h'.held x), h'.keeps x⟩
  once x := by
    rw [noted_append, List.map_append]
    refine (h.once x).append (h'.once x) fun key hkey hkey' => ?_
    -- a key of the first part is known behind it, one of the second part is not
    obtain ⟨⟨_, value⟩, hmem, rfl⟩ := List.mem_map.1 hkey
    obtain ⟨⟨_, value'⟩, hmem', heq⟩ := List.mem_map.1 hkey'
    obtain rfl : _ = _ := heq
    exact h'.unknown x _ (h'.computes x _ value' (mem_noted.1 hmem'))
      (h.asked x _ (h.computes x _ value (mem_noted.1 hmem)))

variable [LawfulBEq κ] [Std.LawfulEqOrd κ] [Std.TransOrd κ]

theorem Acts.fit (h : Acts w act w') (hfit : w.Fit) : w'.Fit := by
  cases h with
  | call h => exact h.fit hfit
  | subscribe h => exact h.fit hfit
  | merge ha hb => exact hfit.merge ha hb

/-- What every action keeps holds behind a course. -/
theorem World.Fit.along (h : w.Fit) {P : World κ ε ρ → Prop} {acts : List (Action κ ε ρ)} (hP : P w)
    (hstep : ∀ {u act v}, act ∈ acts → u.Fit → Acts u act v → P u → P v)
    (hcourse : w.course depth acts = some w') : P w' ∧ w'.Fit := by
  induction acts generalizing w with
  | nil =>
    obtain rfl := course_nil.1 hcourse
    exact ⟨hP, h⟩
  | cons act rest ih =>
    obtain ⟨v, hafter, hrest⟩ := course_cons.1 hcourse
    have hacts := h.acts hafter
    exact ih (hacts.fit h) (hstep List.mem_cons_self h hacts hP)
      (fun hmem => hstep (List.mem_cons_of_mem _ hmem)) hrest

theorem World.Fit.course (h : w.Fit) {acts : List (Action κ ε ρ)}
    (hcourse : w.course depth acts = some w') : w'.Fit :=
  (h.along (P := fun _ => True) trivial (fun _ _ _ _ => trivial) hcourse).2

omit [Ord κ] [LawfulBEq κ] [Std.LawfulEqOrd κ] [Std.TransOrd κ] in
theorem contains_iff {x : Nat} {key : κ} : w.contains x key ↔ (w.cacheOf x).find? key ≠ none :=
  Option.isSome_iff_ne_none

theorem Used.grows {ls : List (Listener κ ε ρ)} {t : Traffic κ ε ρ} {f : List (Nat × κ)}
    (h : Used w m ls t f w') (hfit : w.Fit) :
    Grows w w' (t.started.map (m, ·)) (t.recorded.map (m, ·)) := by
  have hs := h.sound hfit
  refine ⟨h.computed, h.recorded, ?known, ?held, ?unknown, ?asked, ?computes, ?keeps, ?once⟩
  case known =>
    intro x key hx
    rw [contains_iff] at hx ⊢
    by_cases hshare : w.Share m x
    · obtain ⟨known, hknown⟩ := Option.ne_none_iff_exists'.1 (hshare.cacheOf_eq ▸ hx)
      simp [h.cacheOf_of_share hfit hshare, hs.kept hknown]
    · rwa [h.cacheOf_of_apart hshare]
  case held =>
    intro x
    by_cases hshare : w.Share m x
    · rw [h.cacheOf_of_share hfit hshare, ← hshare.cacheOf_eq]
      intro key hkey
      rw [(hs.results.map Prod.fst).mem_iff, List.map_append]
      exact List.mem_append_left _ hkey
    · rw [h.cacheOf_of_apart hshare]
      exact List.Subset.refl _
  case unknown =>
    intro x key hmem
    simp only [List.mem_map, Prod.mk.injEq] at hmem
    obtain ⟨_, hstarted, rfl, rfl⟩ := hmem
    simp [contains_iff, hs.unknown hstarted]
  case asked =>
    intro x key hmem
    simp only [List.mem_map, Prod.mk.injEq] at hmem
    obtain ⟨_, hstarted, rfl, rfl⟩ := hmem
    rw [contains_iff, h.cacheOf_self hfit]
    rcases hs.at_rest h.resting _ with ⟨hnot, -⟩ | ⟨outcome, -, -, -, hentry⟩
    · exact absurd hstarted hnot
    · simp [hentry]
  case computes =>
    intro x key value hmem
    simp only [List.mem_map, Prod.mk.injEq] at hmem
    obtain ⟨_, hrecorded, rfl, rfl⟩ := hmem
    rcases hs.at_rest h.resting key with ⟨-, hnot, -⟩ | ⟨-, hstarted, -⟩
    · exact absurd hrecorded (hnot value)
    · exact List.mem_map_of_mem hstarted
  case keeps =>
    intro x
    rw [noted_all]
    split
    · subst x
      rw [h.cacheOf_self hfit]
      intro key hkey
      rw [(hs.results.map Prod.fst).mem_iff, List.map_append]
      exact List.mem_append_right _ hkey
    · exact List.nil_subset _
  case once =>
    intro x
    rw [noted_all]
    split
    · have hnodup := hs.recorded_once
      rw [List.map_append] at hnodup
      exact hnodup.of_append_right
    · exact .nil

theorem grows_merge {a b : Nat} (hfit : w.Fit) (ha : a < w.maps.length) (hb : b < w.maps.length) :
    Grows w (w.merge a b) [] [] where
  computed_eq := by simp
  recorded_eq := by simp
  known x key hx := by
    rw [contains_iff] at hx ⊢
    by_cases hjoined : x = b ∨ w.Share a x
    · rw [find?_merge hfit ha hb hjoined, ne_eq, Option.or_eq_none_iff, not_and_or]
      rcases hjoined with rfl | hshare
      · exact .inl hx
      · exact .inr (hshare.cacheOf_eq ▸ hx)
    · rwa [cacheOf_merge_of_apart ha hb hjoined]
  held x := by
    by_cases hjoined : x = b ∨ w.Share a x
    · intro key hkey
      rw [mem_keys_merge hfit ha hb hjoined]
      rcases hjoined with rfl | hshare
      · exact .inl hkey
      · exact .inr (hshare.cacheOf_eq ▸ hkey)
    · rw [cacheOf_merge_of_apart ha hb hjoined]
      exact List.Subset.refl _
  unknown _ _ h := by cases h
  asked _ _ h := by cases h
  computes _ _ _ h := by cases h
  keeps _ := List.nil_subset _
  once _ := .nil

/-- What an action adds to what is known. -/
theorem Acts.grows (h : Acts w act w') (hfit : w.Fit) : ∃ c r, Grows w w' c r := by
  cases h with
  | call h => exact ⟨_, _, h.grows hfit⟩
  | subscribe h => exact ⟨_, _, h.grows hfit⟩
  | merge ha hb => exact ⟨_, _, grows_merge hfit ha hb⟩

theorem course_grows {acts : List (Action κ ε ρ)} (hfit : w.Fit)
    (hcourse : w.course depth acts = some w') : ∃ c r, Grows w w' c r := by
  refine (hfit.along (P := fun v => ∃ c r, Grows w v c r) ⟨_, _, .refl w⟩ ?_ hcourse).1
  rintro u act v - hu hact ⟨c, r, h⟩
  obtain ⟨c', r', h'⟩ := hact.grows hu
  exact ⟨_, _, h.trans h'⟩

end Hoist.Memo
