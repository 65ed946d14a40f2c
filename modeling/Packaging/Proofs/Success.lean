/-!
# Steps that can fail

When a sequence of steps succeeds, every one of them does. With these lemmas the success of a longer
computation is taken apart into the successes of its steps. `Yields` is the success of a computation
that has a state as well, and a computation that `Returns` a value does so in any monad. What a
computation comes to, whether it succeeds or `Fails`, is its `outcome`.
-/

namespace Packaging

variable {ε δ α β : Type}

theorem bind_eq_ok_iff {x : Except ε α} {f : α → Except ε β} {b : β} :
    x >>= f = .ok b ↔ ∃ a, x = .ok a ∧ f a = .ok b := by
  cases x <;> simp [bind, Except.bind]

theorem map_eq_ok_iff {x : Except ε α} {f : α → β} {b : β} :
    x.map f = .ok b ↔ ∃ a, x = .ok a ∧ f a = b := by
  cases x <;> simp [Except.map]

theorem mapError_eq_ok_iff {x : Except ε α} {f : ε → δ} {a : α} :
    x.mapError f = .ok a ↔ x = .ok a := by
  cases x with
  | ok b =>
    have hmap : Except.mapError f (.ok b : Except ε α) = .ok b := rfl
    simp [hmap]
  | error e =>
    have hmap : Except.mapError f (.error e : Except ε α) = .error (f e) := rfl
    simp [hmap]

theorem pure_eq_ok_iff {a b : α} : (pure a : Except ε α) = .ok b ↔ a = b := by
  simp [pure, Except.pure]

theorem not_throw_eq_ok {e : ε} {a : α} : ¬(throw e : Except ε α) = .ok a := by
  simp [throw, throwThe, MonadExceptOf.throw]

/-- What succeeds behind a check succeeds. -/
theorem of_checked_eq_ok {c : Prop} [Decidable c] {check : Except ε α} {x : Except ε β} {b : β}
    (h : (if c then check >>= fun _ => x else x) = .ok b) : x = .ok b := by
  split at h
  · exact (bind_eq_ok_iff.mp h).elim fun _ hx => hx.2
  · exact h

/-! ### Steps with a state -/

variable {σ : Type} {s s' : σ}

/-- Begun in the state `s`, the computation succeeds with `a` and leaves the state `s'`. -/
def Yields (x : ExceptT ε (StateM σ) α) (s : σ) (a : α) (s' : σ) : Prop :=
  (x.run.run s).run = (.ok a, s')

theorem yields_pure_iff {a b : α} :
    Yields (pure a : ExceptT ε (StateM σ) α) s b s' ↔ a = b ∧ s = s' := by
  have hrun : ((pure a : ExceptT ε (StateM σ) α).run.run s).run = (.ok a, s) := rfl
  rw [Yields, hrun, Prod.mk.injEq, Except.ok.injEq]

/-- What the computation comes to in a state: its result, and the state that it leaves. -/
def outcome (x : ExceptT ε (StateM σ) α) (s : σ) : Except ε α × σ := (x.run.run s).run

/-- Begun in the state `s`, the computation fails with `e` and leaves the state `s'`. -/
def Fails (x : ExceptT ε (StateM σ) α) (s : σ) (e : ε) (s' : σ) : Prop := outcome x s = (.error e, s')

theorem yields_iff_outcome {x : ExceptT ε (StateM σ) α} {a : α} :
    Yields x s a s' ↔ outcome x s = (.ok a, s') := Iff.rfl

theorem outcome_bind (x : ExceptT ε (StateM σ) α) (f : α → ExceptT ε (StateM σ) β) (s : σ) :
    outcome (x >>= f) s =
      match outcome x s with
      | (.ok a, s₁) => outcome (f a) s₁
      | (.error e, s₁) => (.error e, s₁) := by
  unfold outcome
  rw [ExceptT.run_bind, StateT.run_bind, Id.run_bind]
  rcases (x.run.run s).run with ⟨_ | a, s₁⟩ <;> rfl

theorem yields_bind_iff {x : ExceptT ε (StateM σ) α} {f : α → ExceptT ε (StateM σ) β} {b : β} :
    Yields (x >>= f) s b s' ↔ ∃ a s₁, Yields x s a s₁ ∧ Yields (f a) s₁ b s' := by
  simp only [yields_iff_outcome]
  rw [outcome_bind]
  rcases outcome x s with ⟨e | a, s₁⟩
  · simp
  · constructor
    · intro h
      exact ⟨a, s₁, rfl, h⟩
    · rintro ⟨_, _, ⟨⟩, h⟩
      exact h

/-! ### Steps with a known result -/

section

universe u v

variable {m : Type u → Type v} [Monad m] [LawfulMonad m] {α β : Type u}

/-- Whatever else the computation does, its result is `a`. -/
def Returns (x : m α) (a : α) : Prop := (fun _ => a) <$> x = x

theorem returns_pure (a : α) : Returns (pure a : m α) a := map_pure _ _

theorem Returns.bind_eq {x : m α} {a : α} (h : Returns x a) (f : α → m β) :
    x >>= f = x >>= fun _ => f a := by
  rw [Returns] at h
  rw [← h, bind_map_left, bind_map_left]

theorem Returns.bind {x : m α} {f : α → m β} {a : α} {b : β} (hx : Returns x a)
    (hf : Returns (f a) b) : Returns (x >>= f) b := by
  rw [hx.bind_eq, Returns, map_bind]
  exact congrArg (x >>= ·) (funext fun _ => hf)

theorem Returns.mapM {f : α → m β} {g : α → β} {as : List α} (h : ∀ a ∈ as, Returns (f a) (g a)) :
    Returns (as.mapM f) (as.map g) := by
  induction as with
  | nil =>
    rw [List.mapM_nil]
    exact returns_pure []
  | cons a as ih =>
    obtain ⟨ha, has⟩ := List.forall_mem_cons.mp h
    rw [List.mapM_cons]
    exact ha.bind ((ih has).bind (returns_pure _))

end

end Packaging
