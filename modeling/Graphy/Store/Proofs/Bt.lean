import Graphy.Store.Bt
import Mathlib.Tactic.Tauto

/-!
# What a stored ordering represents

`Bt.Represents bt T` says that `bt` is the encoding of the strictly increasing
triple list `T`.  The builder establishes it, and under it every navigation
step of `Bt` finds exactly the triples of `T` it names.
-/

namespace Graphy

open BitVector

namespace Bt

/-- The first triple of every (x, y) run. -/
def pairs (T : List Xyz) : List Xyz := runHeads Xyz.xy none T

/-- The first pair of every x group. -/
def groups (T : List Xyz) : List Xyz := runHeads Xyz.x none (pairs T)

structure Represents (bt : Bt) (T : List Xyz) : Prop where
  sorted : T.Pairwise (· < ·)
  nX : bt.nX = (groups T).length
  xValues : bt.xValues = some ((groups T).map Xyz.x) ∨
    (bt.xValues = none ∧ (groups T).map Xyz.x = (List.range bt.nX).map Col.dict)
  bx : bt.bx = runMarks Xyz.x none (pairs T)
  sy : bt.sy = (pairs T).map Xyz.y
  by_ : bt.by_ = runMarks Xyz.xy none T
  sz : bt.sz = T.map Xyz.z

end Bt

namespace BtBuilder

/-- Where the builder stands after the triples `T`. -/
structure Encodes (b : BtBuilder) (T : List Xyz) : Prop where
  last : b.last = T.getLast?
  groups : b.groups = (Bt.groups T).length
  explicitX : b.explicitX = some ((Bt.groups T).map Xyz.x) ∨
    (b.explicitX = none ∧ (Bt.groups T).map Xyz.x = (List.range b.groups).map Col.dict)
  bx : b.bx = runMarks Xyz.x none (Bt.pairs T)
  sy : b.sy = (Bt.pairs T).map Xyz.y
  by_ : b.by_ = runMarks Xyz.xy none T
  sz : b.sz = T.map Xyz.z

theorem encodes_new (explicitX withPz : Bool) : (new explicitX withPz).Encodes [] := by
  refine ⟨rfl, rfl, ?_, rfl, rfl, rfl, rfl⟩
  cases explicitX
  · exact Or.inr ⟨rfl, rfl⟩
  · exact Or.inl rfl

theorem lastKey_x_pairs (T : List Xyz) : lastKey Xyz.x none (Bt.pairs T) = lastKey Xyz.x none T := by
  have xy := lastKey_runHeads Xyz.xy none T
  simp only [lastKey] at xy ⊢
  unfold Bt.pairs
  cases hp : (runHeads Xyz.xy none T).getLast? with
  | none =>
      cases hT : T.getLast? with
      | none => rfl
      | some t => simp [hp, hT] at xy
  | some r =>
      cases hT : T.getLast? with
      | none => simp [hp, hT] at xy
      | some t =>
          simp only [hp, hT, Option.some.injEq] at xy
          exact congrArg some (Xyz.xy_eq_iff.mp xy).1

/-- The group flag of a push: the triple's x differs from the last one. -/
theorem newX_iff {b : BtBuilder} {T : List Xyz} (h : b.Encodes T) (t : Xyz) :
    b.last.all (fun l => decide (l.x ≠ t.x)) = true ↔ lastKey Xyz.x none T ≠ some t.x := by
  rw [h.last, lastKey]
  cases T.getLast? <;> simp

/-- The run flag of a push: the triple's (x, y) differs from the last one. -/
theorem newY_iff {b : BtBuilder} {T : List Xyz} (h : b.Encodes T) (t : Xyz) :
    (b.last.all (fun l => decide (l.x ≠ t.x)) || b.last.all (fun l => decide (l.y ≠ t.y))) = true ↔
      lastKey Xyz.xy none T ≠ some t.xy := by
  rw [h.last, lastKey]
  cases T.getLast? with
  | none => simp
  | some l =>
      simp only [Option.all_some, Bool.or_eq_true, decide_eq_true_eq, ne_eq, Option.some.injEq,
        Xyz.xy_eq_iff]
      tauto

theorem lastKey_xy_imp_x {T : List Xyz} {t : Xyz} (h : lastKey Xyz.xy none T = some t.xy) :
    lastKey Xyz.x none T = some t.x := by
  simp only [lastKey] at h ⊢
  cases hl : T.getLast? with
  | none => simp [hl] at h
  | some l =>
      simp only [hl, Option.some.injEq] at h ⊢
      exact (Xyz.xy_eq_iff.mp h).1

/-- The x array after a new group lists the new group's value, or stays implicit
when the groups stay dense. -/
theorem pushX_spec {explicitX : Option (List Col)} {n : Nat} {xs : List Col} (x : Col)
    (h : explicitX = some xs ∨ (explicitX = none ∧ xs = (List.range n).map Col.dict)) :
    pushX explicitX n x = some (xs ++ [x]) ∨
      (pushX explicitX n x = none ∧ xs ++ [x] = (List.range (n + 1)).map Col.dict) := by
  rcases h with rfl | ⟨rfl, rfl⟩
  · exact Or.inl rfl
  · by_cases gap : x = Col.dict n
    · exact Or.inr ⟨by simp [pushX, gap], by simp [gap, List.range_succ]⟩
    · exact Or.inl (by simp [pushX, gap])

/-- One push extends the encoded list by the pushed triple. -/
theorem encodes_push {b b' : BtBuilder} {T : List Xyz} {t : Xyz} {ordinal : Option Nat}
    (h : b.Encodes T) (hp : b.push t ordinal = .ok b') : b'.Encodes (T ++ [t]) := by
  have hx := newX_iff h t
  have hy := newY_iff h t
  have hxp := lastKey_x_pairs T
  simp only [push] at hp
  split at hp
  · cases hp
  · generalize (b.last.all (fun l => decide (l.x ≠ t.x)) ||
      b.last.all (fun l => decide (l.y ≠ t.y))) = newY at hp hy
    generalize b.last.all (fun l => decide (l.x ≠ t.x)) = newX at hp hx
    cases hp
    cases newY with
    | false =>
        -- the triple continues the last run
        have sameY : lastKey Xyz.xy none T = some t.xy := by simpa using hy
        have sameX := lastKey_xy_imp_x sameY
        obtain rfl : newX = false := by simpa [sameX] using hx
        obtain ⟨marks, heads⟩ := run_concat_same sameY
        have pairs : Bt.pairs (T ++ [t]) = Bt.pairs T := heads
        have groups : Bt.groups (T ++ [t]) = Bt.groups T := by rw [Bt.groups, pairs]; rfl
        exact ⟨by simp, by simp [groups, h.groups], by simpa [groups] using h.explicitX,
          by simp [pairs, h.bx], by simp [pairs, h.sy], by simp [marks, h.by_], by simp [h.sz]⟩
    | true =>
        have freshY : lastKey Xyz.xy none T ≠ some t.xy := by simpa using hy
        obtain ⟨marks, heads⟩ := run_concat_new freshY
        have pairs : Bt.pairs (T ++ [t]) = Bt.pairs T ++ [t] := heads
        cases newX with
        | false =>
            -- a new run in the last group
            have sameX : lastKey Xyz.x none (Bt.pairs T) = some t.x := by
              rw [hxp]
              simpa using hx
            obtain ⟨gmarks, gheads⟩ := run_concat_same sameX
            have groups : Bt.groups (T ++ [t]) = Bt.groups T := by rw [Bt.groups, pairs]; exact gheads
            exact ⟨by simp, by simp [groups, h.groups], by simpa [groups] using h.explicitX,
              by simp [pairs, gmarks, h.bx], by simp [pairs, h.sy], by simp [marks, h.by_],
              by simp [h.sz]⟩
        | true =>
            -- a new group
            have freshX : lastKey Xyz.x none (Bt.pairs T) ≠ some t.x := by
              rw [hxp]
              exact hx.mp rfl
            obtain ⟨gmarks, gheads⟩ := run_concat_new freshX
            have groups : Bt.groups (T ++ [t]) = Bt.groups T ++ [t] := by
              rw [Bt.groups, pairs]
              exact gheads
            refine ⟨by simp, by simp [groups, h.groups], ?_, by simp [pairs, gmarks, h.bx],
              by simp [pairs, h.sy], by simp [marks, h.by_], by simp [h.sz]⟩
            simpa [groups] using pushX_spec t.x h.explicitX

/-- A push is accepted exactly when the triple is above the last one. -/
theorem push_ok_iff {b : BtBuilder} {T : List Xyz} (h : b.Encodes T) (t : Xyz)
    (ordinal : Option Nat) :
    (∃ b', b.push t ordinal = .ok b') ↔ ∀ l, T.getLast? = some l → l < t := by
  simp only [push, h.last]
  cases T.getLast? with
  | none => simp
  | some l =>
      by_cases lt : l < t
      · simp [Option.filter, not_le.mpr lt, lt]
      · simp [Option.filter, not_lt.mp lt]

/-- Pushing a list onto a fresh builder encodes the list, which is strictly increasing. -/
theorem encodes_pushAll {b b' : BtBuilder} {T : List Xyz} {ts : List (Xyz × Option Nat)}
    (h : b.Encodes T) (sorted : T.Pairwise (· < ·)) (hp : b.pushAll ts = .ok b') :
    b'.Encodes (T ++ ts.map Prod.fst) ∧ (T ++ ts.map Prod.fst).Pairwise (· < ·) := by
  induction ts generalizing b T with
  | nil =>
      cases hp
      simpa using ⟨h, sorted⟩
  | cons e ts ih =>
      simp only [pushAll] at hp
      cases step : b.push e.1 e.2 with
      | error m => rw [step] at hp; cases hp
      | ok c =>
          rw [step] at hp
          have enc := encodes_push h step
          have above := (push_ok_iff h e.1 e.2).mp ⟨c, step⟩
          have sorted' : (T ++ [e.1]).Pairwise (· < ·) := by
            refine List.pairwise_append.mpr ⟨sorted, by simp, ?_⟩
            intro a ha b hb
            obtain rfl := List.mem_singleton.mp hb
            obtain ⟨l, hl⟩ : ∃ l, T.getLast? = some l := by
              cases hT : T.getLast? with
              | none => simp [List.getLast?_eq_none_iff.mp hT] at ha
              | some l => exact ⟨l, rfl⟩
            have lt := above l hl
            obtain ⟨init, rfl⟩ := List.getLast?_eq_some_iff.mp hl
            rcases List.mem_append.mp ha with front | back
            · exact (List.pairwise_append.mp sorted).2.2 a front l (by simp) |>.trans lt
            · obtain rfl := List.mem_singleton.mp back
              exact lt
          simpa using ih enc sorted' hp

/-- A strictly increasing list is never refused. -/
theorem pushAll_ok {b : BtBuilder} {T : List Xyz} (ts : List (Xyz × Option Nat))
    (h : b.Encodes T) (sorted : (T ++ ts.map Prod.fst).Pairwise (· < ·)) :
    ∃ b', b.pushAll ts = .ok b' := by
  induction ts generalizing b T with
  | nil => exact ⟨b, rfl⟩
  | cons e ts ih =>
      obtain ⟨c, step⟩ := (push_ok_iff h e.1 e.2).mpr fun l hl =>
        (List.pairwise_append.mp sorted).2.2 l (List.mem_of_getLast? hl) e.1 (by simp)
      have sorted' : (T ++ [e.1] ++ ts.map Prod.fst).Pairwise (· < ·) := by simpa using sorted
      obtain ⟨b', run⟩ := ih (encodes_push h step) sorted'
      exact ⟨b', by simp only [pushAll, step]; exact run⟩

theorem represents_finish {b : BtBuilder} {T : List Xyz} (h : b.Encodes T)
    (sorted : T.Pairwise (· < ·)) : b.finish.Represents T :=
  ⟨sorted, h.groups, h.explicitX, h.bx, h.sy, h.by_, h.sz⟩

/-- The payload of a finished builder is the list of ordinals pushed. -/
theorem pz_pushAll {b b' : BtBuilder} {ts : List (Xyz × Option Nat)} {pz : List Nat}
    (h : b.pz = some pz) (all : ∀ e ∈ ts, e.2.isSome) (hp : b.pushAll ts = .ok b') :
    b'.pz = some (pz ++ ts.filterMap Prod.snd) := by
  induction ts generalizing b pz with
  | nil =>
      cases hp
      simp [h]
  | cons e ts ih =>
      simp only [pushAll] at hp
      obtain ⟨ord, hord⟩ := Option.isSome_iff_exists.mp (all e (by simp))
      cases step : b.push e.1 e.2 with
      | error m => rw [step] at hp; cases hp
      | ok c =>
          rw [step] at hp
          have pzc : c.pz = some (pz ++ [ord]) := by
            simp only [push] at step
            split at step
            · cases step
            · cases step
              simp [h, hord]
          have := ih pzc (fun e he => all e (by simp [he])) hp
          simpa [hord] using this

/-- Without the payload none is kept. -/
theorem pz_pushAll_none {b b' : BtBuilder} {ts : List (Xyz × Option Nat)} (h : b.pz = none)
    (hp : b.pushAll ts = .ok b') : b'.pz = none := by
  induction ts generalizing b with
  | nil =>
      cases hp
      exact h
  | cons e ts ih =>
      simp only [pushAll] at hp
      cases step : b.push e.1 e.2 with
      | error m => rw [step] at hp; cases hp
      | ok c =>
          rw [step] at hp
          refine ih ?_ hp
          simp only [push] at step
          split at step
          · cases step
          · cases step
            simp [h]

end BtBuilder

end Graphy
