import Graphy.Misc.Outcome

/-!
# Computations that emit

A computation that never looks at the emitted part of its state: whatever has been emitted
before, it goes the same way and pushes the same items behind.  The rules follow the
computation's shape.
-/

namespace Graphy

variable {ε σ α β Q ω : Type}

/-- The state it leaves, changed. -/
def Outcome.mapState (f : σ → σ) : Outcome ε σ α → Outcome ε σ α
  | .ok a s => .ok a (f s)
  | .err e s => .err e (f s)
  | .panic message s => .panic message (f s)

namespace Comp

variable (put : σ → Q → σ) (push : Q → ω → Q)

/-- The part that `put` sets is only pushed to. -/
def Emits (m : Comp ε σ α) : Prop :=
  ∀ s, ∃ (out : List ω) (r : Outcome ε σ α),
    ∀ q, m (put s q) = r.mapState fun s' => put s' (out.foldl push q)

variable {put push}

namespace Emits

theorem pure (a : α) : Emits put push (Pure.pure a : Comp ε σ α) :=
  fun s => ⟨[], .ok a s, fun _ => rfl⟩

theorem bind {m : Comp ε σ α} {f : α → Comp ε σ β} (first : Emits put push m)
    (next : ∀ a, Emits put push (f a)) : Emits put push (m >>= f) := by
  intro s
  obtain ⟨out, r, runs⟩ := first s
  cases r with
  | ok a s' =>
      obtain ⟨out', r', runs'⟩ := next a s'
      refine ⟨out ++ out', r', fun q => ?_⟩
      rw [bind_ok (runs q), runs', List.foldl_append]
  | err e s' =>
      refine ⟨out, .err e s', fun q => ?_⟩
      show andThen m f _ = _
      unfold andThen
      rw [runs]
      rfl
  | panic message s' =>
      refine ⟨out, .panic message s', fun q => ?_⟩
      show andThen m f _ = _
      unfold andThen
      rw [runs]
      rfl

/-- The rest may look at everything but the emitted part. -/
theorem get {f : σ → Comp ε σ α} (blind : ∀ s q, f (put s q) = f s)
    (next : ∀ s, Emits put push (f s)) : Emits put push (Comp.get >>= f) := by
  intro s
  obtain ⟨out, r, runs⟩ := next s s
  refine ⟨out, r, fun q => ?_⟩
  rw [← runs, ← blind s q]
  rfl

theorem update {f : σ → σ} (apart : ∀ s q, f (put s q) = put (f s) q) :
    Emits put push (Comp.update f : Comp ε σ Unit) :=
  fun s => ⟨[], .ok () (f s), fun q => congrArg (Outcome.ok ()) (apart s q)⟩

/-- One item is pushed. -/
theorem emit {f : σ → σ} (item : σ → ω)
    (pushes : ∀ s q, f (put s q) = put (f s) (push q (item s))) :
    Emits put push (Comp.update f : Comp ε σ Unit) :=
  fun s => ⟨[item s], .ok () (f s), fun q => congrArg (Outcome.ok ()) (pushes s q)⟩

theorem throws {m : Comp ε σ α} {e : σ → ε} (fails : ∀ s, m s = .err (e s) s)
    (blind : ∀ s q, e (put s q) = e s) : Emits put push m := by
  refine fun s => ⟨[], .err (e s) s, fun q => ?_⟩
  rw [fails, blind]
  rfl

theorem crash (message : String) : Emits put push (Comp.crash message : Comp ε σ α) :=
  fun s => ⟨[], .panic message s, fun _ => rfl⟩

theorem expect (o : Option α) (message : String) :
    Emits put push (Comp.expect o message : Comp ε σ α) := by
  cases o with
  | none => exact crash message
  | some a => exact pure a

/-- What is emitted from a state, and the outcome but for the emitted part. -/
noncomputable def parts {m : Comp ε σ α} (h : Emits put push m) (s : σ) :
    List ω × Outcome ε σ α :=
  ((h s).choose, (h s).choose_spec.choose)

theorem runs {m : Comp ε σ α} (h : Emits put push m) (s : σ) (q : Q) :
    m (put s q) = (h.parts s).2.mapState fun s' => put s' ((h.parts s).1.foldl push q) :=
  (h s).choose_spec.choose_spec q

end Emits

end Comp

end Graphy
