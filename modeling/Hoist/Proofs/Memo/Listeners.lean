import Hoist.Proofs.Memo.Courses

/-!
# Listeners in a course

A listener is due the results that its map holds when it subscribes and the values that are recorded
through this map later. Every action adds to what it was told what it adds to what it is due, as long as
no listener fails. A map that has its cache for itself holds nothing else.
-/

namespace Hoist.Memo

open Traffic World

variable {κ ε ρ : Type} [BEq κ] [LawfulBEq κ] [Ord κ] [Std.LawfulEqOrd κ] [Std.TransOrd κ]
  {u v w w' : World κ ε ρ} {m n x : Nat} {ls : List (Listener κ ε ρ)} {t : Traffic κ ε ρ}
  {f f' : List (Nat × κ)} {since : List (Nat × κ × ρ)} {depth : Nat}

/-- A listener of a map was told what it is due since an earlier world, or has missed some of it, which
happens only if listeners fail. -/
structure Attends (u : World κ ε ρ) (m n : Nat) (since : List (Nat × κ × ρ)) (f : List (Nat × κ))
    (w : World κ ε ρ) : Prop where
  listener : n ∈ w.listenersOf m
  recorded : w.recorded = u.recorded ++ since
  failed : w.failed = u.failed ++ f
  told : ∃ missed, (w.told n ++ missed).Perm (u.due m since) ∧ (f = [] → missed = [])

/-- A listener that subscribes is told of the results of its map and of what is recorded meanwhile. -/
theorem Used.attends {l : Listener κ ε ρ} (h : Used u m [l] t f v) (hfit : u.Fit) :
    Attends u m l.number (t.recorded.map (m, ·)) f v where
  listener := by simp [h.listenersOf, h.listeners]
  recorded := h.recorded
  failed := h.failed
  told := by
    have hs := h.sound hfit
    have hnew : l.number ∉ u.numbers := h.arrived hfit (by simp)
    have hold : l.number ∉ u.listenersOf m := fun hmem => hnew (mem_numbers hmem)
    have htold := hs.told l.number
    simp only [owed, h.listeners, hold, List.mem_append, List.map_cons, List.map_nil,
      List.mem_singleton, or_true, if_true, if_false, noted_append] at htold
    refine ⟨noted l.number t.pending, ?_, fun hf => by simp [h.pending hf, noted]⟩
    have hbefore : noted l.number u.notified = [] := hfit.untold hnew
    simpa [World.told, h.notified, hbefore, due, noted_all] using htold.trans hs.results

namespace Attends

omit [BEq κ] [LawfulBEq κ] [Ord κ] [Std.LawfulEqOrd κ] [Std.TransOrd κ] in
/-- A listener was told no more than it is due, and all of it if no listener has failed. -/
theorem tells (h : Attends u m n since f w) : (w.told n).Subperm (u.due m since) ∧
    (w.failed = u.failed → (w.told n).Perm (u.due m since)) := by
  obtain ⟨missed, hperm, hmissed⟩ := h.told
  refine ⟨(List.sublist_append_left _ missed).subperm.trans hperm.subperm, fun hf => ?_⟩
  have hnone : f = [] := List.append_cancel_left
    (h.failed.symm.trans (hf.trans (List.append_nil _).symm))
  simpa [hmissed hnone] using hperm

theorem used_self (h : Attends u m n since f w) (hfit : w.Fit) (hu : Used w m ls t f' w') :
    Attends u m n (since ++ t.recorded.map (m, ·)) (f ++ f') w' where
  listener := by simp [hu.listenersOf, hu.listeners, h.listener]
  recorded := by rw [hu.recorded, h.recorded, List.append_assoc]
  failed := by rw [hu.failed, h.failed, List.append_assoc]
  told := by
    obtain ⟨missed, hperm, hmissed⟩ := h.told
    have htold := (hu.sound hfit).told n
    simp only [owed, hu.listeners, h.listener, List.mem_append, true_or, if_true,
      noted_append] at htold
    refine ⟨missed ++ noted n t.pending, ?_, fun hf => ?_⟩
    · have htold' : w'.told n = w.told n ++ noted n t.received := by simp [World.told, hu.notified]
      have hdue : u.due m (since ++ t.recorded.map (m, ·)) = u.due m since ++ t.recorded := by
        simp [due, noted_all]
      -- what was told and what was missed on either side of the action are put together
      have hswap : (w.told n ++ noted n t.received ++ (missed ++ noted n t.pending)).Perm
          (w.told n ++ missed ++ (noted n t.received ++ noted n t.pending)) := by
        simpa using (List.perm_append_comm_assoc ..).append_left (w.told n)
      rw [htold', hdue]
      exact hswap.trans (hperm.append htold)
    · obtain ⟨hf, hf'⟩ := List.append_eq_nil_iff.1 hf
      simp [hmissed hf, hu.pending hf', noted]

theorem used_elsewhere (h : Attends u m n since f w) (hfit : w.Fit) (hx : x ≠ m)
    (hu : Used w x ls t f' w') :
    Attends u m n (since ++ t.recorded.map (x, ·)) (f ++ f') w' where
  listener := by simpa [hu.listenersOf, hx.symm] using h.listener
  recorded := by rw [hu.recorded, h.recorded, List.append_assoc]
  failed := by rw [hu.failed, h.failed, List.append_assoc]
  told := by
    obtain ⟨missed, hperm, hmissed⟩ := h.told
    have hout : n ∉ t.listeners := by
      rw [hu.listeners, List.mem_append, not_or]
      exact ⟨fun hn => hx (hfit.listenersOf_apart hn h.listener),
        fun hn => hu.arrived hfit hn (mem_numbers h.listener)⟩
    refine ⟨missed, ?_, fun hf => hmissed (List.append_eq_nil_iff.1 hf).1⟩
    simpa [World.told, hu.notified, (hu.sound hfit).untold hout, due, noted_all, hx.symm] using hperm

omit [LawfulBEq κ] [Std.LawfulEqOrd κ] [Std.TransOrd κ] in
theorem merge {a b : Nat} (h : Attends u m n since f w) : Attends u m n since f (w.merge a b) where
  listener := by simpa [listenersOf_merge] using h.listener
  recorded := by simpa using h.recorded
  failed := by simpa using h.failed
  told := by simpa [World.told] using h.told

/-- Whatever happens, the listener goes on. -/
theorem acts {act : Action κ ε ρ} (h : Attends u m n since f w) (hfit : w.Fit)
    (hact : Acts w act w') : ∃ since' f', Attends u m n since' f' w' := by
  have used {x ls t f'} (hu : Used w x ls t f' w') : ∃ since' f', Attends u m n since' f' w' := by
    by_cases hx : x = m
    · subst hx
      exact ⟨_, _, h.used_self hfit hu⟩
    · exact ⟨_, _, h.used_elsewhere hfit hx hu⟩
  cases hact with
  | call hu | subscribe hu => exact used hu
  | merge ha hb => exact ⟨since, f, h.merge⟩

theorem course {acts : List (Action κ ε ρ)} (h : Attends u m n since f w) (hfit : w.Fit)
    (hcourse : w.course depth acts = some w') : ∃ since' f', Attends u m n since' f' w' :=
  (hfit.along (P := fun v => ∃ since f, Attends u m n since f v) ⟨since, f, h⟩
    (fun _ hfit hact ⟨_, _, h⟩ => h.acts hfit hact) hcourse).1

end Attends

/-- A map has its cache for itself, and holds what it has held since an earlier world or what was
recorded through it since. -/
structure Alone (u : World κ ε ρ) (m : Nat) (since : List (Nat × κ × ρ)) (w : World κ ε ρ) :
    Prop where
  recorded : w.recorded = u.recorded ++ since
  apart : ∀ x, w.Share x m → x = m
  results : (w.cacheOf m).results.Perm (u.due m since)

namespace Alone

omit [BEq κ] [LawfulBEq κ] [Ord κ] [Std.LawfulEqOrd κ] [Std.TransOrd κ] in
theorem refl (h : ∀ x, u.Share x m → x = m) : Alone u m [] u where
  recorded := (List.append_nil _).symm
  apart := h
  results := by simp [due, noted]

theorem used (h : Alone u m since w) (hfit : w.Fit) (hu : Used w x ls t f' w') :
    Alone u m (since ++ t.recorded.map (x, ·)) w' where
  recorded := by rw [hu.recorded, h.recorded, List.append_assoc]
  apart y hy := h.apart y (hu.share.1 hy)
  results := by
    by_cases hx : x = m
    · subst hx
      have hgrows := (hu.sound hfit).results.trans (h.results.append_right t.recorded)
      rw [hu.cacheOf_self hfit]
      simpa [due, noted_all] using hgrows
    · rw [hu.cacheOf_of_apart fun hs => hx (h.apart x hs)]
      simpa [due, noted_all, Ne.symm hx] using h.results

omit [LawfulBEq κ] [Std.LawfulEqOrd κ] [Std.TransOrd κ] in
/-- A merge of other maps does not concern the map. -/
theorem merge {a b : Nat} (h : Alone u m since w) (ha : a < w.maps.length) (hb : b < w.maps.length)
    (ham : a ≠ m) (hbm : b ≠ m) : Alone u m since (w.merge a b) where
  recorded := by simpa using h.recorded
  apart y hy := by
    obtain ⟨c, hyc, hmc⟩ := hy
    rw [pointer_merge ha hb] at hyc hmc
    rw [if_neg hbm.symm] at hmc
    by_cases hyb : y = b
    · rw [if_pos hyb] at hyc
      exact absurd (h.apart a ⟨c, hyc, hmc⟩) ham
    · rw [if_neg hyb] at hyc
      exact h.apart y ⟨c, hyc, hmc⟩
  results := by
    have hx : ¬ (m = b ∨ w.Share a m) :=
      not_or.2 ⟨hbm.symm, fun hs => ham (h.apart a hs)⟩
    rw [cacheOf_merge_of_apart ha hb hx]
    exact h.results

theorem course {acts : List (Action κ ε ρ)} (h : Alone u m since w) (hfit : w.Fit)
    (hacts : ∀ a b, .merge a b ∈ acts → a ≠ m ∧ b ≠ m)
    (hcourse : w.course depth acts = some w') : ∃ since', Alone u m since' w' := by
  refine (hfit.along (P := fun v => ∃ since, Alone u m since v) ⟨since, h⟩ ?_ hcourse).1
  rintro v act v' hmem hfit hact ⟨since, h⟩
  cases hact with
  | call hu | subscribe hu => exact ⟨_, h.used hfit hu⟩
  | merge ha hb =>
    obtain ⟨ham, hbm⟩ := hacts _ _ hmem
    exact ⟨since, h.merge ha hb ham hbm⟩

end Alone

omit [LawfulBEq κ] [Std.TransOrd κ] in
/-- No key is due twice: what is recorded later is of keys that the map did not know. -/
theorem Grows.nodup_due {c : List (Nat × κ)} (h : Grows u w c since) (hfit : u.Fit) (m : Nat) :
    ((u.due m since).map Prod.fst).Nodup := by
  rw [due, List.map_append]
  refine (hfit.orderly m).inOrder.nodup.append (h.once m) fun key hheld hnew => ?_
  obtain ⟨p, hp, rfl⟩ := List.mem_map.1 hheld
  obtain ⟨⟨_, value⟩, hq, heq⟩ := List.mem_map.1 hnew
  obtain rfl : _ = p.1 := heq
  exact h.unknown m _ (h.computes m _ value (mem_noted.1 hq))
    (contains_iff.2 ((hfit.orderly m).known p hp))

omit [LawfulBEq κ] [Std.LawfulEqOrd κ] [Std.TransOrd κ] [Ord κ] in
theorem Grows.due_subset {c : List (Nat × κ)} (h : Grows u w c since) (m : Nat) :
    (u.due m since).map Prod.fst ⊆ (w.cacheOf m).results.map Prod.fst := by
  rw [due, List.map_append]
  exact List.append_subset.2 ⟨h.held m, h.keeps m⟩

end Hoist.Memo
