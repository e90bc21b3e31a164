namespace BootAssembly

/-- An outcome together with everything recorded on the way to it. A failure keeps its records. -/
structure Traced (τ ε α : Type) where
  outcome : Except ε α
  trace : List τ

namespace Traced

variable {τ σ ε δ α β : Type}

protected def pure (a : α) : Traced τ ε α := ⟨.ok a, []⟩

protected def bind (x : Traced τ ε α) (f : α → Traced τ ε β) : Traced τ ε β :=
  match x.outcome with
  | .ok a => let y := f a; ⟨y.outcome, x.trace ++ y.trace⟩
  | .error e => ⟨.error e, x.trace⟩

instance : Monad (Traced τ ε) where
  pure := Traced.pure
  bind := Traced.bind

def ofExcept (x : Except ε α) : Traced τ ε α := ⟨x, []⟩

def fail (e : ε) : Traced τ ε α := ⟨.error e, []⟩

def record (t : τ) : Traced τ ε Unit := ⟨.ok (), [t]⟩

def mapTrace (f : τ → σ) (x : Traced τ ε α) : Traced σ ε α := ⟨x.outcome, x.trace.map f⟩

def mapError (f : ε → δ) (x : Traced τ ε α) : Traced τ δ α :=
  ⟨match x.outcome with
    | .ok a => .ok a
    | .error e => .error (f e), x.trace⟩

instance : MonadLift (Except ε) (Traced τ ε) where
  monadLift := ofExcept

@[simp] theorem outcome_pure (a : α) : (pure a : Traced τ ε α).outcome = .ok a := rfl

@[simp] theorem trace_pure (a : α) : (pure a : Traced τ ε α).trace = [] := rfl

theorem outcome_bind (x : Traced τ ε α) (f : α → Traced τ ε β) :
    (x >>= f).outcome = x.outcome >>= fun a => (f a).outcome := by
  obtain ⟨outcome, trace⟩ := x
  cases outcome <;> rfl

theorem trace_bind (x : Traced τ ε α) (f : α → Traced τ ε β) :
    (x >>= f).trace = x.trace ++
      match x.outcome with
      | .ok a => (f a).trace
      | .error _ => [] := by
  obtain ⟨outcome, trace⟩ := x
  cases outcome with
  | ok a => rfl
  | error e => exact (List.append_nil trace).symm

@[simp] theorem outcome_ofExcept (x : Except ε α) :
    (ofExcept x : Traced τ ε α).outcome = x := rfl

@[simp] theorem outcome_fail (e : ε) : (fail e : Traced τ ε α).outcome = .error e := rfl

@[simp] theorem outcome_record (t : τ) : (record t : Traced τ ε Unit).outcome = .ok () := rfl

theorem bind_congr {x : Traced τ ε α} {f g : α → Traced τ ε β}
    (h : ∀ a, x.outcome = .ok a → f a = g a) : x >>= f = x >>= g := by
  obtain ⟨outcome, trace⟩ := x
  cases outcome with
  | error e => rfl
  | ok a =>
    show Traced.bind ⟨.ok a, trace⟩ f = Traced.bind ⟨.ok a, trace⟩ g
    simp only [Traced.bind, h a rfl]

theorem outcome_bind_of_ok {x : Traced τ ε α} {f : α → Traced τ ε β} {a : α}
    (h : x.outcome = .ok a) : (x >>= f).outcome = (f a).outcome := by
  rw [outcome_bind, h]
  rfl

theorem outcome_bind_of_error {x : Traced τ ε α} {f : α → Traced τ ε β} {e : ε}
    (h : x.outcome = .error e) : (x >>= f).outcome = .error e := by
  rw [outcome_bind, h]
  rfl

theorem outcome_bind_eq_ok {x : Traced τ ε α} {f : α → Traced τ ε β} {b : β} :
    (x >>= f).outcome = .ok b ↔ ∃ a, x.outcome = .ok a ∧ (f a).outcome = .ok b := by
  rw [outcome_bind]
  cases x.outcome <;> simp [bind, Except.bind]

theorem outcome_discard_eq_ok {x : Traced τ ε α} {u : PUnit} :
    (discard x).outcome = .ok u ↔ ∃ a, x.outcome = .ok a := by
  obtain ⟨outcome, trace⟩ := x
  cases outcome with
  | error e => exact iff_of_false (fun h => nomatch h) (fun ⟨_, h⟩ => nomatch h)
  | ok a => exact iff_of_true rfl ⟨a, rfl⟩

theorem outcome_guard_eq_ok {p : Prop} [Decidable p] {x : Traced τ ε PUnit}
    {f : PUnit → Traced τ ε β} {b : β} (hx : x.outcome ≠ .ok ⟨⟩) :
    (if p then x >>= f else f ⟨⟩).outcome = .ok b ↔ ¬ p ∧ (f ⟨⟩).outcome = .ok b := by
  by_cases h : p
  · rw [if_pos h, outcome_bind_eq_ok]
    exact ⟨fun hb => absurd hb.choose_spec.1 hx, fun hb => absurd h hb.1⟩
  · rw [if_neg h]
    exact ⟨fun hb => ⟨h, hb⟩, And.right⟩

theorem outcome_forM {f : α → Traced τ ε Unit} (h : ∀ a, (f a).outcome = .ok ()) (as : List α) :
    (as.forM f).outcome = .ok () := by
  induction as with
  | nil => rfl
  | cons a as ih => exact outcome_bind_eq_ok.mpr ⟨(), h a, ih⟩

theorem bind_assoc (x : Traced τ ε α) (f : α → Traced τ ε β) {γ : Type}
    (g : β → Traced τ ε γ) : (x >>= f) >>= g = x >>= fun a => f a >>= g := by
  obtain ⟨outcome, trace⟩ := x
  cases outcome with
  | error e => rfl
  | ok a =>
    show Traced.bind (Traced.bind ⟨.ok a, trace⟩ f) g =
      Traced.bind ⟨.ok a, trace⟩ fun a => Traced.bind (f a) g
    cases h : (f a).outcome <;> simp [Traced.bind, h]

theorem bind_pure (x : Traced τ ε α) : (x >>= pure) = x := by
  obtain ⟨outcome, trace⟩ := x
  cases outcome with
  | ok a => exact congrArg (Traced.mk (.ok a)) (List.append_nil trace)
  | error e => rfl

instance : LawfulMonad (Traced τ ε) :=
  LawfulMonad.mk' _ bind_pure (fun _ _ => rfl) fun x f g => bind_assoc x f g

end Traced

end BootAssembly
