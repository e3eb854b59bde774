import Mathlib.Data.List.Nodup
import Mathlib.Logic.Function.Basic
import Mathlib.Logic.Relation

/-!
# Clients of one store

Each client runs one request: it takes a view of the store, computes a write from the
view alone, and the write is applied to whatever the store holds by then.  The requests
that have finished, in order, with the part of that order each one had seen, are the
history of a run, and the store is what their writes leave.
-/

namespace Graphy

/-- Requests over a state: what each may compute from a view, with `none` for an answer
without a write, and what a write does. -/
structure Service (ι σ δ : Type*) where
  plans : ι → σ → Option δ → Prop
  accepts : δ → Prop
  apply : δ → σ → σ

namespace Service

variable {ι σ δ : Type*}

/-- What a planned answer does. -/
def effect (sv : Service ι σ δ) : Option δ → σ → σ
  | none, s => s
  | some w, s => sv.apply w s

/-- Run one request alone. -/
def Executes (sv : Service ι σ δ) (c : ι) (s s' : σ) : Prop :=
  ∃ plan, sv.plans c s plan ∧ (∀ w, plan = some w → sv.accepts w) ∧ s' = sv.effect plan s

/-- Run requests one after another. -/
inductive Serial (sv : Service ι σ δ) : List ι → σ → σ → Prop where
  | nil (s : σ) : Serial sv [] s s
  | cons {c : ι} {cs : List ι} {s mid s' : σ} (first : sv.Executes c s mid)
      (rest : Serial sv cs mid s') : Serial sv (c :: cs) s s'

/-- Where a client stands. -/
inductive Pc (σ δ : Type*) where
  | idle
  | read (view : σ)
  | planned (view : σ) (write : δ)
  | finished

structure World (ι σ δ : Type*) where
  store : σ
  pcs : ι → Pc σ δ

/-- Nothing has happened yet. -/
def start (s : σ) : World ι σ δ := ⟨s, fun _ => .idle⟩

variable [DecidableEq ι]

/-- One step of one client. -/
inductive Step (sv : Service ι σ δ) : World ι σ δ → World ι σ δ → Prop where
  | snapshot {w : World ι σ δ} {c : ι} (at_ : w.pcs c = .idle) :
      Step sv w { w with pcs := Function.update w.pcs c (.read w.store) }
  | answer {w : World ι σ δ} {c : ι} {view : σ} (at_ : w.pcs c = .read view)
      (plan : sv.plans c view none) : Step sv w { w with pcs := Function.update w.pcs c .finished }
  | compute {w : World ι σ δ} {c : ι} {view : σ} {write : δ} (at_ : w.pcs c = .read view)
      (plan : sv.plans c view (some write)) :
      Step sv w { w with pcs := Function.update w.pcs c (.planned view write) }
  | commit {w : World ι σ δ} {c : ι} {view : σ} {write : δ} (at_ : w.pcs c = .planned view write)
      (accepted : sv.accepts write) :
      Step sv w ⟨sv.apply write w.store, Function.update w.pcs c .finished⟩

/-! ## Serial runs -/

omit [DecidableEq ι] in
theorem serial_append_iff {sv : Service ι σ δ} {a b : List ι} {s s' : σ} :
    sv.Serial (a ++ b) s s' ↔ ∃ mid, sv.Serial a s mid ∧ sv.Serial b mid s' := by
  constructor
  · intro run
    induction a generalizing s with
    | nil => exact ⟨s, .nil s, run⟩
    | cons c a ih =>
        cases run with
        | cons step rest =>
            obtain ⟨mid, head, tail⟩ := ih rest
            exact ⟨mid, .cons step head, tail⟩
  · rintro ⟨mid, first, rest⟩
    induction first with
    | nil s => exact rest
    | cons step run ih => exact .cons step (ih rest)

omit [DecidableEq ι] in
theorem serial_singleton {sv : Service ι σ δ} {c : ι} {s s' : σ} :
    sv.Serial [c] s s' ↔ sv.Executes c s s' := by
  constructor
  · rintro (_ | ⟨step, _ | _⟩)
    exact step
  · intro step
    exact .cons step (.nil s')

/-! ## Histories -/

/-- A finished request: how many had finished when it took its view, and what it planned. -/
structure Entry (ι δ : Type*) where
  client : ι
  since : Nat
  plan : Option δ

/-- The state the writes of some requests leave. -/
def after (sv : Service ι σ δ) (s : σ) (history : List (Entry ι δ)) : σ :=
  history.foldl (fun s e => sv.effect e.plan s) s

omit [DecidableEq ι] in
theorem after_append (sv : Service ι σ δ) (s : σ) (a b : List (Entry ι δ)) :
    sv.after s (a ++ b) = sv.after (sv.after s a) b := List.foldl_append

/-- Every request was planned on what a first part of the history leaves. -/
structure History (sv : Service ι σ δ) (init : σ) (history : List (Entry ι δ)) : Prop where
  nodup : (history.map Entry.client).Nodup
  earlier : ∀ (e : Entry ι δ) (i : Nat), history[i]? = some e → e.since ≤ i
  planned : ∀ e ∈ history, sv.plans e.client (sv.after init (history.take e.since)) e.plan
  accepted : ∀ e ∈ history, ∀ w, e.plan = some w → sv.accepts w

/-- The history of the finished requests of a run. -/
structure Explains (sv : Service ι σ δ) (init : σ) (w : World ι σ δ)
    (history : List (Entry ι δ)) : Prop extends History sv init history where
  store : sv.after init history = w.store
  done : ∀ c, c ∈ history.map Entry.client ↔ w.pcs c = .finished
  reading : ∀ c view, w.pcs c = .read view →
    ∃ n ≤ history.length, sv.after init (history.take n) = view
  writing : ∀ c view write, w.pcs c = .planned view write →
    sv.plans c view (some write) ∧ ∃ n ≤ history.length, sv.after init (history.take n) = view

omit [DecidableEq ι] in
/-- What one more finished request does to the history. -/
theorem History.concat {sv : Service ι σ δ} {init : σ} {history : List (Entry ι δ)}
    (h : sv.History init history) {e : Entry ι δ} (fresh : e.client ∉ history.map Entry.client)
    (since : e.since ≤ history.length)
    (plan : sv.plans e.client (sv.after init (history.take e.since)) e.plan)
    (accepted : ∀ w, e.plan = some w → sv.accepts w) : sv.History init (history ++ [e]) := by
  refine ⟨?_, fun d i get => ?_, fun d mem => ?_, fun d mem w eq => ?_⟩
  · rw [List.map_append, List.nodup_append]
    refine ⟨h.nodup, List.nodup_singleton _, ?_⟩
    rintro a mem b last rfl
    exact fresh (List.mem_singleton.mp last ▸ mem)
  · rcases Nat.lt_or_ge i history.length with old | new
    · rw [List.getElem?_append_left old] at get
      exact h.earlier d i get
    · rw [List.getElem?_append_right new, List.getElem?_singleton] at get
      split at get
      · cases get
        omega
      · cases get
  · rcases List.mem_append.mp mem with old | new
    · obtain ⟨i, get⟩ := List.mem_iff_getElem?.mp old
      have le := h.earlier d i get
      have lt := (List.getElem?_eq_some_iff.mp get).1
      rw [List.take_append_of_le_length (by omega)]
      exact h.planned d old
    · obtain rfl := List.mem_singleton.mp new
      rw [List.take_append_of_le_length since]
      exact plan
  · rcases List.mem_append.mp mem with old | new
    · exact h.accepted d old w eq
    · obtain rfl := List.mem_singleton.mp new
      exact accepted w eq

/-- A client that moves on without finishing. -/
theorem Explains.moved {sv : Service ι σ δ} {init : σ} {w : World ι σ δ}
    {history : List (Entry ι δ)} (h : sv.Explains init w history) {c : ι} {pc : Pc σ δ}
    (old : w.pcs c ≠ .finished) (new : pc ≠ .finished)
    (reading : ∀ v, pc = .read v → ∃ n ≤ history.length, sv.after init (history.take n) = v)
    (writing : ∀ v u, pc = .planned v u →
      sv.plans c v (some u) ∧ ∃ n ≤ history.length, sv.after init (history.take n) = v) :
    sv.Explains init { w with pcs := Function.update w.pcs c pc } history := by
  refine ⟨h.toHistory, h.store, fun d => ?_, fun d v here => ?_, fun d v u here => ?_⟩
  · rw [h.done]
    by_cases same : d = c
    · subst same
      simp [old, new]
    · simp [Function.update_of_ne same]
  · by_cases same : d = c
    · subst same
      exact reading v (by simpa using here)
    · simp only [Function.update_of_ne same] at here
      exact h.reading d v here
  · by_cases same : d = c
    · subst same
      exact writing v u (by simpa using here)
    · simp only [Function.update_of_ne same] at here
      exact h.writing d v u here

/-- A client that finishes. -/
theorem Explains.finished {sv : Service ι σ δ} {init : σ} {w : World ι σ δ}
    {history : List (Entry ι δ)} (h : sv.Explains init w history) {c : ι} {plan : Option δ}
    (old : w.pcs c ≠ .finished) {n : Nat} (since : n ≤ history.length)
    (planned : sv.plans c (sv.after init (history.take n)) plan)
    (accepted : ∀ u, plan = some u → sv.accepts u) :
    sv.Explains init ⟨sv.effect plan w.store, Function.update w.pcs c .finished⟩
      (history ++ [⟨c, n, plan⟩]) := by
  have fresh : c ∉ history.map Entry.client := fun mem => old ((h.done c).mp mem)
  have earlier {v : σ} (seen : ∃ n ≤ history.length, sv.after init (history.take n) = v) :
      ∃ m ≤ (history ++ [(⟨c, n, plan⟩ : Entry ι δ)]).length,
        sv.after init ((history ++ [(⟨c, n, plan⟩ : Entry ι δ)]).take m) = v := by
    obtain ⟨m, le, same⟩ := seen
    refine ⟨m, by simp; omega, ?_⟩
    rw [List.take_append_of_le_length le, same]
  refine ⟨h.toHistory.concat fresh since planned accepted, ?_, fun d => ?_, fun d v here => ?_,
    fun d v u here => ?_⟩
  · rw [after_append, h.store]
    rfl
  · have before := h.done d
    by_cases same : d = c
    · subst same
      simp
    · simp only [Function.update_of_ne same]
      rw [← before]
      simp [same]
  · by_cases same : d = c
    · subst same
      simp at here
    · simp only [Function.update_of_ne same] at here
      exact earlier (h.reading d v here)
  · by_cases same : d = c
    · subst same
      simp at here
    · simp only [Function.update_of_ne same] at here
      exact ⟨(h.writing d v u here).1, earlier (h.writing d v u here).2⟩

theorem Explains.step {sv : Service ι σ δ} {init : σ} {w w' : World ι σ δ}
    {history : List (Entry ι δ)} (h : sv.Explains init w history) (step : sv.Step w w') :
    ∃ history', sv.Explains init w' history' := by
  cases step with
  | @snapshot c at_ =>
      refine ⟨history, h.moved (by simp [at_]) (by simp) (fun v eq => ?_) (by simp)⟩
      cases eq
      exact ⟨history.length, Nat.le_refl _, by rw [List.take_length]; exact h.store⟩
  | @compute c view write at_ plan =>
      refine ⟨history, h.moved (by simp [at_]) (by simp) (by simp) fun v u eq => ?_⟩
      cases eq
      exact ⟨plan, h.reading c view at_⟩
  | @answer c view at_ plan =>
      obtain ⟨n, since, rfl⟩ := h.reading c view at_
      exact ⟨_, h.finished (by simp [at_]) since plan (by simp)⟩
  | @commit c view write at_ accepted =>
      obtain ⟨plan, n, since, rfl⟩ := h.writing c view write at_
      exact ⟨_, h.finished (by simp [at_]) since plan fun u eq => by cases eq; exact accepted⟩

/-- Every run has a history. -/
theorem explains_of_run {sv : Service ι σ δ} {init : σ} {w : World ι σ δ}
    (run : Relation.ReflTransGen sv.Step (start init) w) :
    ∃ history, sv.Explains init w history := by
  induction run with
  | refl =>
      refine ⟨[], ⟨.nil, by simp, by simp, by simp⟩, rfl, ?_, ?_, ?_⟩ <;> simp [start]
  | tail _ step ih =>
      obtain ⟨history, h⟩ := ih
      exact h.step step

/-- In any run, a planned write is one the client could compute from the view it took. -/
theorem plans_of_run {sv : Service ι σ δ} {init : σ} {w : World ι σ δ}
    (run : Relation.ReflTransGen sv.Step (start init) w) {c : ι} {view : σ} {write : δ}
    (at_ : w.pcs c = .planned view write) : sv.plans c view (some write) := by
  obtain ⟨history, h⟩ := explains_of_run run
  exact (h.writing c view write at_).1

end Service

end Graphy
