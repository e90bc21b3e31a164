import BootAssembly.Proofs.Attempt.TrustGate

namespace BootAssembly

/-- Two runs that look the same through `view`: both fail with the same error, or both succeed with
results that `S` relates. -/
structure Related {τ σ ε α β : Type} (view : τ → σ) (S : α → β → Prop) (x : Traced τ ε α)
    (y : Traced τ ε β) : Prop where
  trace : x.trace.map view = y.trace.map view
  outcome : (∃ e, x.outcome = .error e ∧ y.outcome = .error e) ∨
    ∃ a b, x.outcome = .ok a ∧ y.outcome = .ok b ∧ S a b

namespace Related

variable {τ σ ε δ α β γ κ : Type} {view : τ → σ} {S : α → β → Prop} {T : γ → κ → Prop}

theorem refl (x : Traced τ ε α) : Related view Eq x x := by
  refine ⟨rfl, ?_⟩
  cases h : x.outcome with
  | error e => exact .inl ⟨e, rfl, rfl⟩
  | ok a => exact .inr ⟨a, a, rfl, rfl, rfl⟩

theorem pure {a : α} {b : β} (h : S a b) :
    Related view S (Pure.pure a : Traced τ ε α) (Pure.pure b) :=
  ⟨rfl, .inr ⟨a, b, rfl, rfl, h⟩⟩

theorem record {t u : τ} (h : view t = view u) :
    Related view Eq (Traced.record t : Traced τ ε Unit) (Traced.record u) :=
  ⟨congrArg (fun v => [v]) h, .inr ⟨(), (), rfl, rfl, rfl⟩⟩

theorem bind {x : Traced τ ε α} {y : Traced τ ε β} {f : α → Traced τ ε γ} {g : β → Traced τ ε κ}
    (hxy : Related view S x y) (hfg : ∀ a b, S a b → Related view T (f a) (g b)) :
    Related view T (x >>= f) (y >>= g) := by
  obtain ⟨htrace, ⟨e, hx, hy⟩ | ⟨a, b, hx, hy, hab⟩⟩ := hxy
  · refine ⟨?_, .inl ⟨e, Traced.outcome_bind_of_error hx, Traced.outcome_bind_of_error hy⟩⟩
    rw [Traced.trace_bind, Traced.trace_bind, hx, hy]
    simpa using htrace
  · obtain ⟨hlater, hout⟩ := hfg a b hab
    constructor
    · rw [Traced.trace_bind, Traced.trace_bind, hx, hy]
      simp only [List.map_append, htrace, hlater]
    · rw [Traced.outcome_bind_of_ok hx, Traced.outcome_bind_of_ok hy]
      exact hout

theorem same_bind {x : Traced τ ε α} {f : α → Traced τ ε γ} {g : α → Traced τ ε κ}
    (hfg : ∀ a, x.outcome = .ok a → Related view T (f a) (g a)) :
    Related view T (x >>= f) (x >>= g) := by
  have hx : Related view (fun a b => a = b ∧ x.outcome = .ok a) x x := by
    refine ⟨rfl, ?_⟩
    cases h : x.outcome with
    | error e => exact .inl ⟨e, rfl, rfl⟩
    | ok a => exact .inr ⟨a, a, rfl, rfl, rfl, rfl⟩
  apply hx.bind
  rintro a _ ⟨rfl, ha⟩
  exact hfg a ha

theorem mapError {x : Traced τ ε α} {y : Traced τ ε β} (h : Related view S x y) (f : ε → δ) :
    Related view S (x.mapError f) (y.mapError f) := by
  refine ⟨h.trace, ?_⟩
  obtain ⟨e, hx, hy⟩ | ⟨a, b, hx, hy, hab⟩ := h.outcome
  · exact .inl ⟨f e, by simp [Traced.mapError, hx], by simp [Traced.mapError, hy]⟩
  · exact .inr ⟨a, b, by simp [Traced.mapError, hx], by simp [Traced.mapError, hy], hab⟩

end Related

namespace Attempt

def Event.blind : Event → Event
  | called (.verify name _) => called (.verify name [])
  | event => event

theorem state?_blind (event : Event) : event.blind.state? = event.state? := by
  cases event with
  | called call => cases call <;> rfl
  | _ => rfl

theorem note?_blind (event : Event) : event.blind.note? = event.note? := by
  cases event with
  | called call => cases call <;> rfl
  | _ => rfl

theorem bind_call?_blind {κ : Type} {read : Call → Option κ}
    (hverify : ∀ name image, read (.verify name image) = none) (event : Event) :
    event.blind.call?.bind read = event.call?.bind read := by
  cases event with
  | called call =>
    cases call with
    | verify name image => exact (hverify name []).trans (hverify name image).symm
    | _ => rfl
  | _ => rfl

variable {α β : Type} {S : α → β → Prop}

theorem related_ofReport {x : Report α} {y : Report β} (h : Related id S x y) :
    Related Event.blind S (Step.ofReport x) (Step.ofReport y) := by
  have htrace : x.trace = y.trace := by simpa using h.trace
  apply Related.mapError
  exact ⟨congrArg (fun notes => (notes.map Event.noted).map Event.blind) htrace, h.outcome⟩

theorem related_ask (call : Call) {x : Report α} {y : Report β} (h : Related id S x y) :
    Related Event.blind S (Step.ask call x) (Step.ask call y) := by
  apply Related.bind (Related.refl _)
  rintro _ _ -
  exact related_ofReport h

theorem related_advance (current next : State) {x : Step α} {y : Step β}
    (h : Related Event.blind S x y) :
    Related Event.blind S (advance current next x) (advance current next y) := by
  apply Related.bind (h.mapError _)
  intro a b hab
  apply Related.bind (Related.refl _)
  rintro _ _ -
  exact Related.pure hab

theorem finish_related {x y : Run Handoff} (h : Related Event.blind Eq x y) :
    (finish x).decision = (finish y).decision ∧
      (finish x).events.map Event.blind = (finish y).events.map Event.blind := by
  obtain ⟨htrace, ⟨why, hx, hy⟩ | ⟨handoff, _, hx, hy, rfl⟩⟩ := h
  · simp only [finish, hx, hy, List.map_append, htrace, and_self]
  · simp only [finish, hx, hy, List.map_append, htrace, and_self]

theorem filterMap_eq_of_blind {κ : Type} {read : Event → Option κ}
    (hread : ∀ event, read event.blind = read event) {events others : List Event}
    (h : events.map Event.blind = others.map Event.blind) :
    events.filterMap read = others.filterMap read := by
  have hblind (es : List Event) : (es.map Event.blind).filterMap read = es.filterMap read := by
    rw [List.filterMap_map, show read ∘ Event.blind = read from funext hread]
  rw [← hblind events, h, hblind others]

end Attempt

end BootAssembly
