/-!
# Computations that may fail or panic

A computation over a state returns a value, returns an error or panics.  `wp` is
the state's condition under which it does not panic and the outcome satisfies the
given conditions; its rules follow the computation's shape.
-/

namespace Graphy

/-- How a computation ends, with the state it leaves. -/
inductive Outcome (ε σ α : Type) where
  | ok (a : α) (s : σ)
  | err (e : ε) (s : σ)
  | panic (message : String) (s : σ)

/-- The state a computation leaves, however it ends. -/
def Outcome.state {ε σ α : Type} : Outcome ε σ α → σ
  | .ok _ s => s
  | .err _ s => s
  | .panic _ s => s

/-- A computation over a state. -/
def Comp (ε σ α : Type) := σ → Outcome ε σ α

namespace Comp

variable {ε σ α β : Type}

def ret (a : α) : Comp ε σ α := fun s => .ok a s

def andThen (m : Comp ε σ α) (f : α → Comp ε σ β) : Comp ε σ β := fun s =>
  match m s with
  | .ok a s' => f a s'
  | .err e s' => .err e s'
  | .panic message s' => .panic message s'

instance : Monad (Comp ε σ) where
  pure := ret
  bind := andThen

def get : Comp ε σ σ := fun s => .ok s s

def update (f : σ → σ) : Comp ε σ Unit := fun s => .ok () (f s)

def fail (e : ε) : Comp ε σ α := fun s => .err e s

def crash (message : String) : Comp ε σ α := fun s => .panic message s

/-- The value, or a panic without one. -/
def expect (o : Option α) (message : String) : Comp ε σ α :=
  match o with
  | some a => ret a
  | none => crash message

theorem bind_ok {m : Comp ε σ β} {f : β → Comp ε σ α} {b : β} {s s' : σ} (h : m s = .ok b s') :
    (m >>= f) s = f b s' := by
  show andThen m f s = f b s'
  unfold andThen
  rw [h]

/-- From the state the computation does not panic, a value satisfies `Q` with the state it
leaves, and an error leaves a state with `E`. -/
def wp (m : Comp ε σ α) (Q : α → σ → Prop) (E : σ → Prop) (s : σ) : Prop :=
  match m s with
  | .ok a s' => Q a s'
  | .err _ s' => E s'
  | .panic _ _ => False

variable {Q : α → σ → Prop} {E : σ → Prop} {s : σ}

@[simp] theorem wp_pure (a : α) : wp (pure a : Comp ε σ α) Q E s ↔ Q a s := Iff.rfl

@[simp] theorem wp_bind (m : Comp ε σ β) (f : β → Comp ε σ α) :
    wp (m >>= f) Q E s ↔ wp m (fun b s' => wp (f b) Q E s') E s := by
  show wp (andThen m f) Q E s ↔ _
  unfold wp andThen
  cases m s <;> rfl

@[simp] theorem wp_get {Q : σ → σ → Prop} : wp (get : Comp ε σ σ) Q E s ↔ Q s s := Iff.rfl

@[simp] theorem wp_update {Q : Unit → σ → Prop} (f : σ → σ) :
    wp (update f : Comp ε σ Unit) Q E s ↔ Q () (f s) := Iff.rfl

@[simp] theorem wp_fail (e : ε) : wp (fail e : Comp ε σ α) Q E s ↔ E s := Iff.rfl

@[simp] theorem wp_crash (message : String) : wp (crash message : Comp ε σ α) Q E s ↔ False :=
  Iff.rfl

@[simp] theorem wp_expect_some (a : α) (message : String) :
    wp (expect (some a) message : Comp ε σ α) Q E s ↔ Q a s := Iff.rfl

theorem wp_mono {m : Comp ε σ α} {Q' : α → σ → Prop} {E' : σ → Prop} (h : wp m Q E s)
    (okMono : ∀ a s', Q a s' → Q' a s') (errMono : ∀ s', E s' → E' s') : wp m Q' E' s := by
  unfold wp at h ⊢
  generalize m s = outcome at h ⊢
  cases outcome with
  | ok a s' => exact okMono a s' h
  | err e s' => exact errMono s' h
  | panic message s' => exact h

/-- From the state a value satisfies `Q` with the state the computation leaves. -/
def wlp (m : Comp ε σ α) (Q : α → σ → Prop) (s : σ) : Prop := ∀ a s', m s = .ok a s' → Q a s'

theorem wlp_of_forall {m : Comp ε σ α} (h : ∀ a s', Q a s') : wlp m Q s := fun a s' _ => h a s'

theorem wlp_pure {a : α} (h : Q a s) : wlp (pure a : Comp ε σ α) Q s := by
  intro a' s' ran
  cases ran
  exact h

theorem wlp_bind {m : Comp ε σ β} {f : β → Comp ε σ α}
    (h : wlp m (fun b s' => wlp (f b) Q s') s) : wlp (m >>= f) Q s := by
  intro a s' ran
  change andThen m f s = _ at ran
  unfold andThen at ran
  split at ran
  · rename_i b s₁ first
    exact h b s₁ first a s' ran
  · cases ran
  · cases ran

theorem wlp_get {f : σ → Comp ε σ α} (h : wlp (f s) Q s) : wlp (get >>= f) Q s := by
  refine wlp_bind fun b s' ran => ?_
  cases ran
  exact h

theorem wlp_update {Q : Unit → σ → Prop} {f : σ → σ} (h : Q () (f s)) :
    wlp (update f : Comp ε σ Unit) Q s := by
  intro a s' ran
  cases ran
  exact h

theorem wlp_crash (message : String) : wlp (crash message : Comp ε σ α) Q s := by
  intro a s' ran
  cases ran

end Comp

end Graphy
