import Mathlib.Logic.Relation
import Mathlib.Data.List.Basic

/-!
# Machines fed in chunks

A machine takes turns over the input it has.  It emits and goes on, stops for good, or waits
for more input.  When a turn does not depend on the input behind what it reads, neither the
emitted values nor the end depend on how the input is cut into chunks.
-/

namespace Graphy

variable {σ β ω ρ : Type}

/-- What one turn comes to. -/
inductive Turn (σ ω ρ : Type) where
  | go (out : List ω) (s : σ)
  /-- Nothing more can be read until more is fed. -/
  | wait (s : σ)
  | stop (out : List ω) (r : ρ)

/-- A machine: its turns, by whether the input is complete, and the feeding of a chunk. -/
structure Machine (σ β ω ρ : Type) where
  turn : Bool → σ → Turn σ ω ρ
  feed : List β → σ → σ

namespace Machine

/-- The machine takes turns until it waits in a state or stops with a result. -/
inductive Pumps (m : Machine σ β ω ρ) (eof : Bool) : σ → List ω → σ ⊕ ρ → Prop where
  | go {s s' : σ} {out os : List ω} {e : σ ⊕ ρ} (turn : m.turn eof s = .go out s')
      (more : Pumps m eof s' os e) : Pumps m eof s (out ++ os) e
  | wait {s s' : σ} (turn : m.turn eof s = .wait s') : Pumps m eof s [] (.inl s')
  | stop {s : σ} {out : List ω} {r : ρ} (turn : m.turn eof s = .stop out r) :
      Pumps m eof s out (.inr r)

/-- The chunks are fed one by one and the input is then complete. -/
inductive Reads (m : Machine σ β ω ρ) : List (List β) → σ → List ω → σ ⊕ ρ → Prop where
  | finish {s : σ} {os : List ω} {e : σ ⊕ ρ} (pumped : m.Pumps true s os e) : Reads m [] s os e
  | feed {chunk : List β} {chunks : List (List β)} {s s' : σ} {os os' : List ω} {e : σ ⊕ ρ}
      (pumped : m.Pumps false (m.feed chunk s) os (.inl s')) (more : Reads m chunks s' os' e) :
      Reads m (chunk :: chunks) s (os ++ os') e
  | stop {chunk : List β} {chunks : List (List β)} {s : σ} {os : List ω} {r : ρ}
      (pumped : m.Pumps false (m.feed chunk s) os (.inr r)) :
      Reads m (chunk :: chunks) s os (.inr r)

/-- No turn depends on the input behind what it reads, and a machine that waits goes on behind
a chunk as if the chunk had been there. -/
structure Steady (m : Machine σ β ω ρ) : Prop where
  feed_nil : ∀ s, m.feed [] s = s
  feed_feed : ∀ a b s, m.feed b (m.feed a s) = m.feed (a ++ b) s
  go : ∀ {s s' out}, m.turn false s = .go out s' →
    ∀ eof chunk, m.turn eof (m.feed chunk s) = .go out (m.feed chunk s')
  stop : ∀ {s out r}, m.turn false s = .stop out r →
    ∀ eof chunk, m.turn eof (m.feed chunk s) = .stop out r
  wait : ∀ {s s'}, m.turn false s = .wait s' →
    ∀ eof chunk, m.turn eof (m.feed chunk s) = m.turn eof (m.feed chunk s')

variable {m : Machine σ β ω ρ} {eof : Bool}

theorem Pumps.unique {s : σ} {os os' : List ω} {e e' : σ ⊕ ρ} (first : m.Pumps eof s os e)
    (second : m.Pumps eof s os' e') : os = os' ∧ e = e' := by
  induction first generalizing os' e' with
  | go turn more ih =>
      cases second with
      | go turn' more' =>
          cases turn.symm.trans turn'
          obtain ⟨rfl, rfl⟩ := ih more'
          exact ⟨rfl, rfl⟩
      | wait turn' => cases turn.symm.trans turn'
      | stop turn' => cases turn.symm.trans turn'
  | wait turn =>
      cases second with
      | go turn' more' => cases turn.symm.trans turn'
      | wait turn' =>
          cases turn.symm.trans turn'
          exact ⟨rfl, rfl⟩
      | stop turn' => cases turn.symm.trans turn'
  | stop turn =>
      cases second with
      | go turn' more' => cases turn.symm.trans turn'
      | wait turn' => cases turn.symm.trans turn'
      | stop turn' =>
          cases turn.symm.trans turn'
          exact ⟨rfl, rfl⟩

/-- States with the same turn go the same way. -/
theorem Pumps.of_turn {s s' : σ} (same : m.turn eof s = m.turn eof s') {os : List ω}
    {e : σ ⊕ ρ} (pumped : m.Pumps eof s os e) : m.Pumps eof s' os e := by
  cases pumped with
  | go turn more => exact .go (same.symm.trans turn) more
  | wait turn => exact .wait (same.symm.trans turn)
  | stop turn => exact .stop (same.symm.trans turn)

section Chunks

variable (steady : m.Steady) (chunk : List β)
include steady

/-- Where the machine waits, it goes on behind the chunk. -/
theorem Pumps.resume {s s' : σ} {os os' : List ω} {e : σ ⊕ ρ}
    (pumped : m.Pumps false s os (.inl s')) (more : m.Pumps eof (m.feed chunk s') os' e) :
    m.Pumps eof (m.feed chunk s) (os ++ os') e := by
  generalize paused : (Sum.inl s' : σ ⊕ ρ) = e' at pumped
  induction pumped with
  | go turn _ ih =>
      rw [List.append_assoc]
      exact .go (steady.go turn eof chunk) (ih paused)
  | wait turn =>
      cases paused
      exact more.of_turn (steady.wait turn eof chunk).symm
  | stop turn => cases paused

/-- Where the machine stops, it stops with the chunk behind as well. -/
theorem Pumps.stopped {s : σ} {os : List ω} {r : ρ} (pumped : m.Pumps false s os (.inr r)) :
    m.Pumps eof (m.feed chunk s) os (.inr r) := by
  generalize ended : (Sum.inr r : σ ⊕ ρ) = e at pumped
  induction pumped with
  | go turn _ ih => exact .go (steady.go turn eof chunk) (ih ended)
  | wait turn => cases ended
  | stop turn =>
      cases ended
      exact .stop (steady.stop turn eof chunk)

/-- A run over more input has a run over less inside it. -/
theorem Pumps.split {s : σ} {os : List ω} {e : σ ⊕ ρ}
    (pumped : m.Pumps eof (m.feed chunk s) os e) :
    (∃ os₁ os₂ s', os = os₁ ++ os₂ ∧ m.Pumps false s os₁ (.inl s') ∧
      m.Pumps eof (m.feed chunk s') os₂ e) ∨
    ∃ r, e = .inr r ∧ m.Pumps false s os (.inr r) := by
  generalize fed : m.feed chunk s = t at pumped
  induction pumped generalizing s with
  | @go t t' out os e turn more ih =>
      subst fed
      cases first : m.turn false s with
      | go out' s' =>
          cases turn.symm.trans (steady.go first eof chunk)
          rcases ih rfl with ⟨os₁, os₂, s'', rfl, before, behind⟩ | ⟨r, rfl, before⟩
          · exact .inl ⟨out ++ os₁, os₂, s'', (List.append_assoc ..).symm, .go first before, behind⟩
          · exact .inr ⟨r, rfl, .go first before⟩
      | wait s' =>
          refine .inl ⟨[], out ++ os, s', rfl, .wait first, ?_⟩
          exact .go ((steady.wait first eof chunk).symm.trans turn) more
      | stop out' r => cases turn.symm.trans (steady.stop first eof chunk)
  | @wait t t' turn =>
      subst fed
      cases first : m.turn false s with
      | go out' s' => cases turn.symm.trans (steady.go first eof chunk)
      | wait s' =>
          refine .inl ⟨[], [], s', rfl, .wait first, ?_⟩
          exact .wait ((steady.wait first eof chunk).symm.trans turn)
      | stop out' r => cases turn.symm.trans (steady.stop first eof chunk)
  | @stop t out r turn =>
      subst fed
      cases first : m.turn false s with
      | go out' s' => cases turn.symm.trans (steady.go first eof chunk)
      | wait s' =>
          refine .inl ⟨[], out, s', rfl, .wait first, ?_⟩
          exact .stop ((steady.wait first eof chunk).symm.trans turn)
      | stop out' r' =>
          cases turn.symm.trans (steady.stop first eof chunk)
          exact .inr ⟨r, rfl, .stop first⟩

end Chunks

/-- Reading chunk by chunk is one run over all of the input. -/
theorem reads_iff (steady : m.Steady) {chunks : List (List β)} {s : σ} {os : List ω}
    {e : σ ⊕ ρ} : m.Reads chunks s os e ↔ m.Pumps true (m.feed chunks.flatten s) os e := by
  constructor
  · intro reads
    induction reads with
    | finish pumped =>
        rw [List.flatten_nil, steady.feed_nil]
        exact pumped
    | feed pumped more ih =>
        rw [List.flatten_cons, ← steady.feed_feed]
        exact pumped.resume steady _ ih
    | stop pumped =>
        rw [List.flatten_cons, ← steady.feed_feed]
        exact pumped.stopped steady _
  · intro pumped
    induction chunks generalizing s os with
    | nil =>
        rw [List.flatten_nil, steady.feed_nil] at pumped
        exact .finish pumped
    | cons chunk chunks ih =>
        rw [List.flatten_cons, ← steady.feed_feed] at pumped
        rcases pumped.split steady _ with ⟨os₁, os₂, s', rfl, before, behind⟩ | ⟨r, rfl, before⟩
        · exact .feed before (ih behind)
        · exact .stop before

end Machine

end Graphy
