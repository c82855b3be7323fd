import Hoist.Proofs.Semantics.Flat
import Hoist.Proofs.Semantics.Surface

/-!
# Limits of nested calls

Programs that may nest their calls deeper yield the same values and perhaps more. What they come to at
any depth at all is a limit: a program over the limit of all calls yields what it yields at some depth.
In the limit, a call is what the body of the function comes to, whatever the depth.
-/

namespace Hoist

variable {β γ : Type}

/-- What longer and longer computations come to. -/
structure Limit (F : Nat → Option β) (o : Option β) : Prop where
  step : ∀ k v, F k = some v → F (k + 1) = some v
  iff : ∀ v, o = some v ↔ ∃ k, F k = some v

namespace Limit

variable {F : Nat → Option β} {o o' : Option β}

theorem mono (h : Limit F o) {k m : Nat} {v : β} (hk : k ≤ m) (hv : F k = some v) :
    F m = some v := by
  induction hk with
  | refl => exact hv
  | step _ ih => exact h.step _ v ih

theorem const (o : Option β) : Limit (fun _ => o) o :=
  ⟨fun _ _ h => h, fun _ => ⟨fun h => ⟨0, h⟩, fun ⟨_, h⟩ => h⟩⟩

theorem bind {G : β → Nat → Option γ} {g : β → Option γ} (h : Limit F o)
    (h' : ∀ v, Limit (G v) (g v)) : Limit (fun k => F k >>= fun v => G v k) (o >>= g) where
  step k w hw := by
    obtain ⟨v, hv, hw⟩ := Option.bind_eq_some_iff.1 hw
    exact Option.bind_eq_some_iff.2 ⟨v, h.step k v hv, (h' v).step k w hw⟩
  iff w := by
    constructor
    · intro hw
      obtain ⟨v, hv, hw⟩ := Option.bind_eq_some_iff.1 hw
      obtain ⟨k, hk⟩ := (h.iff v).1 hv
      obtain ⟨m, hm⟩ := ((h' v).iff w).1 hw
      exact ⟨max k m, Option.bind_eq_some_iff.2
        ⟨v, h.mono (Nat.le_max_left k m) hk, (h' v).mono (Nat.le_max_right k m) hm⟩⟩
    · rintro ⟨k, hk⟩
      obtain ⟨v, hv, hw⟩ := Option.bind_eq_some_iff.1 hk
      exact Option.bind_eq_some_iff.2 ⟨v, (h.iff v).2 ⟨k, hv⟩, ((h' v).iff w).2 ⟨k, hw⟩⟩

theorem map (f : β → γ) (h : Limit F o) : Limit (fun k => (F k).map f) (o.map f) := by
  have hmap : ∀ p : Option β, p.map f = p >>= fun v => some (f v) := fun p => by cases p <;> rfl
  simp only [hmap]
  exact h.bind fun v => .const _

/-- A computation, and then another one that yields no less. -/
theorem of_le (h : ∀ v, o = some v → o' = some v) :
    Limit (fun k => if k = 0 then o else o') o' where
  step k v hv := by
    cases k with
    | zero => exact h v hv
    | succ k => exact hv
  iff v := by
    constructor
    · exact fun hv => ⟨1, hv⟩
    · rintro ⟨k, hk⟩
      cases k with
      | zero => exact h v hk
      | succ k => exact hk

/-- The first computation may be left out. -/
theorem eq_of_tail (h : Limit F o) (h' : Limit (fun k => F (k + 1)) o') : o = o' := by
  apply Option.ext
  intro v
  rw [h.iff, h'.iff]
  exact ⟨fun ⟨k, hk⟩ => ⟨k, h.step k v hk⟩, fun ⟨k, hk⟩ => ⟨k + 1, hk⟩⟩

end Limit

/-- The limit of computations. -/
noncomputable def limit (F : Nat → Option β) : Option β :=
  open Classical in if h : ∃ v k, F k = some v then some h.choose else none

theorem limit_spec {F : Nat → Option β} (h : ∀ k v, F k = some v → F (k + 1) = some v) :
    Limit F (limit F) where
  step := h
  iff v := by
    have hmono : ∀ {k m v}, k ≤ m → F k = some v → F m = some v := by
      intro k m v hk hv
      induction hk with
      | refl => exact hv
      | step _ ih => exact h _ v ih
    unfold limit
    constructor
    · intro hv
      split at hv
      · rename_i he
        cases hv
        exact he.choose_spec
      · cases hv
    · rintro ⟨k, hk⟩
      have he : ∃ v k, F k = some v := ⟨v, k, hk⟩
      obtain ⟨m, hm⟩ := he.choose_spec
      rw [dif_pos he]
      have h₁ := hmono (Nat.le_max_left k m) hk
      rw [hmono (Nat.le_max_right k m) hm] at h₁
      exact h₁

namespace Flat

variable {α : Type} {W : World α} {T : Table} {C : Nat → Fn α → List (Val α) → Option (Val α)}
  {c c' : Fn α → List (Val α) → Option (Val α)}

theorem applyValue_limit (hC : ∀ f args, Limit (C · f args) (c f args)) (f : Val α)
    (args : List (Val α)) :
    Limit (fun k => applyValue W (C k) f args) (applyValue W c f args) := by
  unfold applyValue
  split
  · split
    · exact .const _
    · exact hC _ _
  · exact .const _

mutual

/-- What a node yields over the limit of calls is the limit of what it yields. -/
theorem eval_limit (hC : ∀ f args, Limit (C · f args) (c f args)) : ∀ (n : Node)
    (ρ : Bindings α), Limit (fun k => eval W T (C k) ρ n) (eval W T c ρ n)
  | .ref .., ρ => .const _
  | .value .., ρ => .const _
  | .tuple _ es, ρ => by
    simp only [eval]
    exact (evals_limit hC es ρ).map _
  | .apply _ f args _, ρ => by
    simp only [eval]
    exact (eval_limit hC f ρ).bind fun f => (evals_limit hC args ρ).bind fun vs =>
      applyValue_limit hC f vs
  | .letIn _ bs b, ρ => by
    simp only [eval]
    exact (evalBindings_limit hC bs ρ).bind fun ρ => eval_limit hC b ρ
  | .begin _ ss, ρ => by
    simp only [eval]
    exact (evals_limit hC ss ρ).bind fun vs => .const _
  | .closure _ f args, ρ => by
    simp only [eval]
    exact (evals_limit hC args ρ).bind fun vs => .const _

theorem evals_limit (hC : ∀ f args, Limit (C · f args) (c f args)) : ∀ (ns : List Node)
    (ρ : Bindings α), Limit (fun k => evals W T (C k) ρ ns) (evals W T c ρ ns)
  | [], ρ => .const _
  | n :: ns, ρ => by
    simp only [evals]
    exact (eval_limit hC n ρ).bind fun v => (evals_limit hC ns ρ).bind fun vs => .const _

theorem evalBindings_limit (hC : ∀ f args, Limit (C · f args) (c f args)) :
    ∀ (bs : List (Symbol × Node)) (ρ : Bindings α),
      Limit (fun k => evalBindings W T (C k) ρ bs) (evalBindings W T c ρ bs)
  | [], ρ => .const _
  | (s, n) :: bs, ρ => by
    simp only [evalBindings]
    exact (eval_limit hC n ρ).bind fun v => evalBindings_limit hC bs _

end

theorem enter_limit (hC : ∀ f args, Limit (C · f args) (c f args)) (l : Lambda)
    (vs : List (Val α)) : Limit (fun k => l.enter W T (C k) vs) (l.enter W T c vs) := by
  unfold Lambda.enter
  split
  · exact eval_limit hC _ _
  · exact .const _

theorem callAt_step (n : Nat) (f : Fn α) (args : List (Val α)) (v : Val α)
    (h : callAt W T n f args = some v) : callAt W T (n + 1) f args = some v := by
  induction n generalizing f args v with
  | zero => cases h
  | succ n ih =>
    obtain ⟨ref, captured⟩ := f
    obtain ⟨l, hl, hv⟩ := Option.bind_eq_some_iff.1 h
    have hlim := enter_limit (W := W) (T := T)
      (C := fun k f args => if k = 0 then callAt W T n f args else callAt W T (n + 1) f args)
      (fun f args => .of_le (ih f args)) l (captured ++ args)
    exact Option.bind_eq_some_iff.2 ⟨l, hl, (hlim.iff v).2 ⟨0, hv⟩⟩

/-- Calls of lambdas of a table, nested however deep. -/
noncomputable def callLimit (W : World α) (T : Table) (f : Fn α) (args : List (Val α)) :
    Option (Val α) := limit fun n => callAt W T n f args

theorem callLimit_spec (f : Fn α) (args : List (Val α)) :
    Limit (callAt W T · f args) (callLimit W T f args) :=
  limit_spec fun k v => callAt_step k f args v

/-- In the limit, a call is what the body of the lambda comes to. -/
theorem callLimit_eq (ref : Symbol) (captured args : List (Val α)) :
    callLimit W T ⟨ref, captured⟩ args =
      (T.find? ref).bind fun l => l.enter W T (callLimit W T) (captured ++ args) :=
  (callLimit_spec _ args).eq_of_tail
    ((Limit.const (T.find? ref)).bind fun l => enter_limit callLimit_spec l _)

theorem Table.returns_iff {ref : Symbol} {args : List (Value α Empty)} {v : Value α Empty} :
    T.Returns W ref args v ↔ callLimit W T ⟨ref, []⟩ (args.map .lift) = some v.lift :=
  ((callLimit_spec _ _).iff _).symm

end Flat

namespace Surface

variable {α : Type} {W : World α} {C : Nat → Knot α} {κ : Knot α}

/-- A knot that is the limit of others, in its calls and in the turns of its loops. -/
structure Knot.IsLimit (C : Nat → Knot α) (κ : Knot α) : Prop where
  call : ∀ f args, Limit (fun k => (C k).call f args) (κ.call f args)
  again : ∀ s env, Limit (fun k => (C k).again s env) (κ.again s env)

theorem applyValue_limit (h : Knot.IsLimit C κ) (f : Val α) (args : List (Val α)) :
    Limit (fun k => applyValue W (C k) f args) (applyValue W κ f args) := by
  unfold applyValue
  split
  · exact h.call _ _
  · exact .const _

theorem evals_limit {es : List Expr} {env : Bindings α}
    (ih : ∀ e ∈ es, Limit (fun k => eval W (C k) env e) (eval W κ env e)) :
    Limit (fun k => evals W (C k) env es) (evals W κ env es) := by
  induction es with
  | nil => exact .const _
  | cons e es ihs =>
    simp only [evals]
    exact (ih e (by simp)).bind fun v =>
      (ihs fun e he => ih e (List.mem_cons_of_mem _ he)).bind fun vs => .const _

theorem evalOption_limit {o : Option Expr} {env : Bindings α}
    (ih : ∀ e ∈ o, Limit (fun k => eval W (C k) env e) (eval W κ env e)) (missing : Literal) :
    Limit (fun k => evalOption W (C k) env o missing) (evalOption W κ env o missing) := by
  cases o with
  | none => exact .const _
  | some e => exact ih e rfl

/-- What an expression yields over the limit of knots is the limit of what it yields. -/
theorem eval_limit (h : Knot.IsLimit C κ) (e : Expr) : ∀ env : Bindings α,
    Limit (fun k => eval W (C k) env e) (eval W κ env e) := by
  induction e using Expr.ind with
  | name sp x => exact fun env => .const _
  | constant sp v => exact fun env => .const _
  | binary sp op l r ihl ihr =>
    intro env
    simp only [eval]
    exact (Limit.const _).bind fun f => (ihl env).bind fun l => (ihr env).bind fun r => .const _
  | unary sp op x ih =>
    intro env
    simp only [eval]
    exact (Limit.const _).bind fun f => (ih env).bind fun x => .const _
  | compare sp l op r ihl ihr =>
    intro env
    simp only [eval]
    exact (Limit.const _).bind fun f => (ihl env).bind fun l => (ihr env).bind fun r => .const _
  | chain sp l rest hlen =>
    intro env
    rcases rest with - | ⟨r, - | ⟨_, _⟩⟩
    · exact .const _
    · exact absurd rfl hlen
    · exact .const _
  | call sp f args ks ihf ihargs =>
    intro env
    cases ks with
    | nil =>
      simp only [eval]
      exact (ihf env).bind fun f => (evals_limit fun e he => ihargs e he env).bind fun vs =>
        applyValue_limit h f vs
    | cons k ks => exact .const _
  | attr sp v name ih =>
    intro env
    simp only [eval]
    exact (ih env).bind fun v => .const _
  | subscript sp v i ihv ihi =>
    intro env
    simp only [eval]
    exact (ihv env).bind fun v => (ihi env).bind fun i => .const _
  | slice sp a b c iha ihb ihc =>
    intro env
    simp only [eval_slice]
    exact (evalOption_limit (fun e he => iha e he env) _).bind fun a =>
      (evalOption_limit (fun e he => ihb e he env) _).bind fun b =>
        (evalOption_limit (fun e he => ihc e he env) _).bind fun c => .const _
  | extSlice sp es ih =>
    intro env
    simp only [eval]
    exact (evals_limit fun e he => ih e he env).map _
  | tuple sp es ih =>
    intro env
    simp only [eval]
    exact (evals_limit fun e he => ih e he env).map _
  | lambda sp ps b ih => exact fun env => .const _
  | foreign e hf =>
    intro env
    cases e <;> simp [Expr.isForeign] at hf <;> exact .const _

theorem execBlock_limit {b : List Stmt}
    (ih : ∀ s ∈ b, ∀ env, Limit (fun k => exec W (C k) env s) (exec W κ env s)) :
    ∀ (env : Bindings α) (last : Option (Val α)),
      Limit (fun k => execBlock W (C k) env last b) (execBlock W κ env last b) := by
  induction b with
  | nil => exact fun env last => .const _
  | cons s b ihb =>
    intro env last
    simp only [execBlock]
    refine (ih s (by simp) env).bind fun fl => ?_
    cases fl with
    | next env last => exact ihb (fun s hs => ih s (List.mem_cons_of_mem _ hs)) env last
    | back v => exact .const _

/-- What a statement comes to over the limit of knots is the limit of what it comes to. -/
theorem exec_limit (h : Knot.IsLimit C κ) (s : Stmt) : ∀ env : Bindings α,
    Limit (fun k => exec W (C k) env s) (exec W κ env s) := by
  induction s using Stmt.ind with
  | expr sp v =>
    intro env
    simp only [exec]
    exact (eval_limit h v env).bind fun v => .const _
  | assign sp ts v =>
    intro env
    rcases ts with - | ⟨t, - | ⟨t', ts⟩⟩
    · exact .const _
    · cases t with
      | name _ x =>
        simp only [exec]
        exact (eval_limit h v env).bind fun v => .const _
      | subscript _ o i =>
        cases o with
        | name _ x =>
          simp only [exec]
          exact (eval_limit h v env).bind fun v => (Limit.const _).bind fun o =>
            (eval_limit h i env).bind fun i => .const _
        | _ => exact .const _
      | _ => exact .const _
    · have hnone : ∀ K : Knot α, exec W K env (.assign sp (t :: t' :: ts) v) = none := by
        intro K
        cases t with
        | subscript _ o _ => cases o <;> rfl
        | _ => rfl
      simp only [hnone]
      exact .const _
  | augAssign sp t op v =>
    intro env
    cases t with
    | name _ x =>
      simp only [exec]
      exact (Limit.const _).bind fun f => (Limit.const _).bind fun o =>
        (eval_limit h v env).bind fun v => .const _
    | _ => exact .const _
  | functionDef sp f ps b ds ih => exact fun env => .const _
  | returnValue sp v =>
    intro env
    cases v with
    | none => exact .const _
    | some e =>
      simp only [exec]
      exact (eval_limit h e env).bind fun v => .const _
  | ifElse sp t b o ihb iho =>
    intro env
    simp only [exec]
    refine (eval_limit h t env).bind fun t => (Limit.const _).bind fun t => ?_
    split
    · exact (execBlock_limit ihb env none).bind fun fl => .const _
    · exact (execBlock_limit iho env none).bind fun fl => .const _
  | whileLoop sp t b o ih =>
    intro env
    cases o with
    | nil =>
      simp only [exec]
      refine (eval_limit h t env).bind fun t => (Limit.const _).bind fun t => ?_
      split
      · refine (execBlock_limit ih env none).bind fun fl => ?_
        cases fl with
        | next env _ => exact h.again _ env
        | back v => exact .const _
      · exact .const _
    | cons s o => exact .const _
  | foreign s hf =>
    intro env
    cases s <;> simp [Stmt.isForeign] at hf <;> exact .const _

theorem enter_limit (h : Knot.IsLimit C κ) (c : Closure α) (args : List (Val α)) :
    Limit (fun k => c.enter W (C k) args) (c.enter W κ args) := by
  obtain ⟨params, code, env⟩ := c
  simp only [Closure.enter]
  split
  · cases code with
    | expr e => exact eval_limit h e _
    | block b =>
      simp only [Code.run]
      exact (execBlock_limit (fun s _ => exec_limit h s) _ none).bind fun fl => .const _
  · exact .const _

/-- A knot, and then another one that yields no less. -/
theorem Knot.isLimit_of_le {K K' : Knot α}
    (hcall : ∀ f args v, K.call f args = some v → K'.call f args = some v)
    (hagain : ∀ s env fl, K.again s env = some fl → K'.again s env = some fl) :
    Knot.IsLimit (fun k => ⟨fun f args => if k = 0 then K.call f args else K'.call f args,
      fun s env => if k = 0 then K.again s env else K'.again s env⟩) K' :=
  ⟨fun f args => .of_le (hcall f args), fun s env => .of_le (hagain s env)⟩

theorem knotAt_step (n : Nat) : (∀ f args v, (knotAt W n).call f args = some v →
      (knotAt W (n + 1)).call f args = some v) ∧
    ∀ s env fl, (knotAt W n).again s env = some fl → (knotAt W (n + 1)).again s env = some fl := by
  induction n with
  | zero => exact ⟨fun _ _ _ h => (nomatch h), fun _ _ _ h => (nomatch h)⟩
  | succ n ih =>
    have hlim := Knot.isLimit_of_le ih.1 ih.2
    exact ⟨fun f args v h => ((enter_limit hlim f args).iff v).2 ⟨0, h⟩,
      fun s env fl h => ((exec_limit hlim s env).iff fl).2 ⟨0, h⟩⟩

/-- The knot tied however many times. -/
noncomputable def knotLimit (W : World α) : Knot α where
  call f args := limit fun n => (knotAt W n).call f args
  again s env := limit fun n => (knotAt W n).again s env

theorem knotLimit_spec : Knot.IsLimit (knotAt W) (knotLimit W) where
  call f args := limit_spec fun k => (knotAt_step k).1 f args
  again s env := limit_spec fun k => (knotAt_step k).2 s env

/-- In the limit, a call is what the body of the closure comes to. -/
theorem knotLimit_call (f : Closure α) (args : List (Val α)) :
    (knotLimit W).call f args = f.enter W (knotLimit W) args :=
  (knotLimit_spec.call f args).eq_of_tail (enter_limit knotLimit_spec f args)

/-- In the limit, another turn of a loop is the loop again. -/
theorem knotLimit_again (s : Stmt) (env : Bindings α) :
    (knotLimit W).again s env = exec W (knotLimit W) env s :=
  (knotLimit_spec.again s env).eq_of_tail (exec_limit knotLimit_spec s env)

theorem Module.returns_iff {m : Module} {args : List (Value α Empty)} {v : Value α Empty} :
    m.Returns W args v ↔ ∃ f, m.function? = some f ∧
      (knotLimit W).call f (args.map .lift) = some v.lift :=
  exists_congr fun f => and_congr_right fun _ => ((knotLimit_spec.call f _).iff _).symm

end Surface

end Hoist
