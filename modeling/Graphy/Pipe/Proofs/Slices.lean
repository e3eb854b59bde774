import Graphy.Pipe.Proofs.Event
import Mathlib.Data.List.ModifyLast
import Mathlib.Data.List.SplitBy

/-!
# Slices of a stream

How the units of a list grow with one more quad, and that `skip`, `head` and `tail` compute their
functions on lists.
-/

namespace Graphy.Pipe

/-! ## Units -/

/-- The quad belongs to the last unit. -/
def Continues (unit : Unit) (xs : List QuadRef) (x : QuadRef) : Prop :=
  unit = .subjects ∧ ∃ y ∈ xs.getLast?, y.s = x.s

theorem units_nil (unit : Unit) : units unit [] = [] := by cases unit <;> rfl

theorem flatten_units (unit : Unit) (xs : List QuadRef) : (units unit xs).flatten = xs := by
  cases unit with
  | quads => rw [units, ← List.flatMap_def, List.flatMap_singleton']
  | subjects => exact List.flatten_splitBy _ xs

/-- Some of the units make up some of the list. -/
theorem flatten_sublist {unit : Unit} {xs : List QuadRef} {runs : List (List QuadRef)}
    (part : runs.Sublist (units unit xs)) : runs.flatten.Sublist xs := by
  have whole := part.flatten
  rwa [flatten_units] at whole

theorem units_concat_new {unit : Unit} {xs : List QuadRef} {x : QuadRef}
    (new : ¬ Continues unit xs x) : units unit (xs ++ [x]) = units unit xs ++ [[x]] := by
  cases unit with
  | quads => simp only [units, List.map_append, List.map_singleton]
  | subjects =>
      refine List.splitBy_append_cons [] fun y last => ?_
      exact beq_eq_false_iff_ne.mpr fun same => new ⟨rfl, y, last, same⟩

theorem units_concat_continues {unit : Unit} {xs : List QuadRef} {x : QuadRef}
    (continues : Continues unit xs x) : ∃ front last, units unit xs = front ++ [last] ∧
      units unit (xs ++ [x]) = front ++ [last ++ [x]] := by
  obtain ⟨rfl, y, here, same⟩ := continues
  have nonempty : units .subjects xs ≠ [] := by
    intro empty
    rw [← flatten_units .subjects xs, empty] at here
    cases here
  obtain ⟨front, last, split⟩ : ∃ front last, units .subjects xs = front ++ [last] :=
    ⟨_, _, (List.dropLast_append_getLast nonempty).symm⟩
  refine ⟨front, last, split, ?_⟩
  obtain ⟨whole, parts, runs, apart⟩ := List.splitBy_eq_iff.mp split
  have last_nonempty : last ≠ [] := fun empty => parts (by simp [empty])
  have last_subject : last.getLast last_nonempty = y := by
    rw [whole, List.flatten_append, List.flatten_singleton,
      List.getLast?_append_of_ne_nil _ last_nonempty, List.getLast?_eq_getLast_of_ne_nil
        last_nonempty] at here
    exact Option.mem_some.mp here
  refine List.splitBy_eq_iff.mpr ⟨?_, ?_, ?_, ?_⟩
  · rw [whole, List.flatten_append, List.flatten_append, List.flatten_singleton,
      List.flatten_singleton, List.append_assoc]
  · intro member
    rcases List.mem_append.mp member with member | member
    · exact parts (List.mem_append_left _ member)
    · simp at member
  · intro run member
    rcases List.mem_append.mp member with member | member
    · exact runs run (List.mem_append_left _ member)
    · rw [List.mem_singleton.mp member, List.isChain_append]
      refine ⟨runs last (by simp), List.isChain_singleton x, fun a ha b hb => ?_⟩
      rw [List.getLast?_eq_getLast_of_ne_nil last_nonempty, last_subject, Option.mem_some] at ha
      rw [List.head?_cons, Option.mem_some] at hb
      rw [← ha, ← hb]
      exact beq_iff_eq.mpr same
  · rw [List.isChain_append] at apart ⊢
    refine ⟨apart.1, List.isChain_singleton _, fun a ha b hb => ?_⟩
    rw [List.head?_cons, Option.mem_some] at hb
    obtain ⟨nonempty_a, nonempty_last, differ⟩ := apart.2.2 a ha last (by simp)
    subst hb
    exact ⟨nonempty_a, by simp, by rwa [List.head_append_of_ne_nil]⟩

theorem length_units_quads (xs : List QuadRef) : (units .quads xs).length = xs.length := by
  rw [units, List.length_map]

/-- Units are kept or new ones come behind them. -/
theorem length_units_le (unit : Unit) (xs ys : List QuadRef) :
    (units unit xs).length ≤ (units unit (xs ++ ys)).length := by
  induction ys using List.reverseRecOn with
  | nil => rw [List.append_nil]
  | append_singleton ys y ih =>
      rw [← List.append_assoc]
      refine ih.trans ?_
      by_cases continues : Continues unit (xs ++ ys) y
      · obtain ⟨front, last, before, after⟩ := units_concat_continues continues
        rw [before, after, List.length_append, List.length_append]
        exact Nat.le_refl _
      · rw [units_concat_new continues, List.length_append]
        exact Nat.le_add_right _ _

/-! ## Slices -/

theorem skip_concat (n : Nat) (unit : Unit) (xs : List QuadRef) (x : QuadRef) :
    (OpSpec.skip n unit).apply (xs ++ [x]) = if n < (units unit (xs ++ [x])).length
      then (OpSpec.skip n unit).apply xs ++ [x] else (OpSpec.skip n unit).apply xs := by
  simp only [OpSpec.apply]
  by_cases continues : Continues unit xs x
  · obtain ⟨front, last, before, after⟩ := units_concat_continues continues
    rw [before, after]
    split
    case isTrue past =>
      rw [List.length_append, List.length_singleton] at past
      rw [List.drop_append_of_le_length (by omega), List.drop_append_of_le_length (by omega),
        List.flatten_append, List.flatten_append, List.flatten_singleton, List.flatten_singleton,
        List.append_assoc]
    case isFalse inside =>
      rw [List.length_append, List.length_singleton] at inside
      rw [List.drop_of_length_le (by simp; omega), List.drop_of_length_le (by simp; omega)]
  · rw [units_concat_new continues]
    split
    case isTrue past =>
      rw [List.length_append, List.length_singleton] at past
      rw [List.drop_append_of_le_length (by omega), List.flatten_append, List.flatten_singleton]
    case isFalse inside =>
      rw [List.length_append, List.length_singleton] at inside
      rw [List.drop_of_length_le (by simp; omega), List.drop_of_length_le (by omega)]

theorem head_concat (n : Nat) (unit : Unit) (xs : List QuadRef) (x : QuadRef) :
    (OpSpec.head n unit).apply (xs ++ [x]) = if (units unit (xs ++ [x])).length ≤ n
      then (OpSpec.head n unit).apply xs ++ [x] else (OpSpec.head n unit).apply xs := by
  simp only [OpSpec.apply]
  by_cases continues : Continues unit xs x
  · obtain ⟨front, last, before, after⟩ := units_concat_continues continues
    rw [before, after]
    split
    case isTrue inside =>
      rw [List.length_append, List.length_singleton] at inside
      rw [List.take_of_length_le (by simp; omega), List.take_of_length_le (by simp; omega),
        List.flatten_append, List.flatten_append, List.flatten_singleton, List.flatten_singleton,
        List.append_assoc]
    case isFalse past =>
      rw [List.length_append, List.length_singleton] at past
      rw [List.take_append_of_le_length (by omega), List.take_append_of_le_length (by omega)]
  · rw [units_concat_new continues]
    split
    case isTrue inside =>
      rw [List.length_append, List.length_singleton] at inside
      rw [List.take_of_length_le (by simp; omega), List.take_of_length_le (by omega),
        List.flatten_append, List.flatten_singleton]
    case isFalse past =>
      rw [List.length_append, List.length_singleton] at past
      rw [List.take_append_of_le_length (by omega)]

/-- Enough units: what follows makes no difference to the first ones. -/
theorem head_full {n : Nat} {unit : Unit} {xs : List QuadRef}
    (full : n < (units unit xs).length) (ys : List QuadRef) :
    (OpSpec.head n unit).apply (xs ++ ys) = (OpSpec.head n unit).apply xs := by
  induction ys using List.reverseRecOn with
  | nil => rw [List.append_nil]
  | append_singleton ys y ih =>
      have longer := length_units_le unit xs (ys ++ [y])
      rw [← List.append_assoc] at longer ⊢
      rw [head_concat, if_neg (by omega), ih]

theorem head_full_quads {n : Nat} {xs : List QuadRef} (full : n ≤ xs.length)
    (ys : List QuadRef) :
    (OpSpec.head n .quads).apply (xs ++ ys) = (OpSpec.head n .quads).apply xs := by
  cases ys with
  | nil => rw [List.append_nil]
  | cons y ys =>
      have more : n < (units .quads (xs ++ [y])).length := by
        rw [length_units_quads, List.length_append, List.length_singleton]
        omega
      have past : ¬ (units .quads (xs ++ [y])).length ≤ n := by omega
      rw [← List.singleton_append, ← List.append_assoc, head_full more, head_concat, if_neg past]

theorem head_filled {n : Nat} {unit : Unit} {xs : List QuadRef} (full : filled n unit xs = true)
    (ys : List QuadRef) : (OpSpec.head n unit).apply (xs ++ ys) = (OpSpec.head n unit).apply xs := by
  cases unit with
  | quads =>
      rw [filled, Bool.and_eq_true] at full
      exact head_full_quads (of_decide_eq_true full.2) ys
  | subjects => exact head_full (of_decide_eq_true full) ys

theorem filled_append {n : Nat} {unit : Unit} {xs : List QuadRef} (full : filled n unit xs = true)
    (ys : List QuadRef) : filled n unit (xs ++ ys) = true := by
  cases unit with
  | quads =>
      rw [filled, Bool.and_eq_true, Bool.not_eq_true', List.isEmpty_eq_false_iff,
        decide_eq_true_eq] at full ⊢
      refine ⟨List.append_ne_nil_of_left_ne_nil full.1 ys, ?_⟩
      rw [List.length_append]
      exact Nat.le_add_right_of_le full.2
  | subjects =>
      rw [filled, decide_eq_true_eq] at full ⊢
      exact Nat.lt_of_lt_of_le full (length_units_le .subjects xs ys)

/-! ## Groups -/

/-- The groups of the subjects seen. -/
def Tracks (groups : Groups) (xs : List QuadRef) : Prop :=
  groups.begun = (units .subjects xs).length ∧ ∀ y ∈ xs.getLast?, groups.cur = y.s

theorem Tracks.nil : Tracks ⟨[], 0⟩ [] := ⟨rfl, fun y last => by cases last⟩

theorem Tracks.observe {groups : Groups} {xs : List QuadRef} (tracks : Tracks groups xs)
    (x : QuadRef) : Tracks (groups.observe x.s).1 (xs ++ [x]) ∧
      (groups.observe x.s).2 = (units .subjects (xs ++ [x])).length := by
  obtain ⟨begun, cur⟩ := tracks
  have last : ∀ {c : Bytes}, c = x.s → ∀ y ∈ (xs ++ [x]).getLast?, c = y.s := fun same y here => by
    rw [List.getLast?_concat, Option.mem_some] at here
    rw [same, here]
  by_cases continues : Continues .subjects xs x
  · obtain ⟨front, run, before, after⟩ := units_concat_continues continues
    obtain ⟨-, y, here, same⟩ := continues
    have count : groups.begun = (units .subjects (xs ++ [x])).length := by
      rw [begun, before, after, List.length_append, List.length_append, List.length_singleton,
        List.length_singleton]
    have subject : groups.cur = x.s := (cur y here).trans same
    have kept : ¬ (groups.begun = 0 ∨ groups.cur ≠ x.s) := by
      rintro (none | other)
      · rw [begun, before, List.length_append] at none
        simp at none
      · exact other subject
    simp only [Groups.observe, if_neg kept]
    exact ⟨⟨count, last subject⟩, count⟩
  · have fresh : groups.begun = 0 ∨ groups.cur ≠ x.s := by
      cases here : xs.getLast? with
      | none =>
          rw [List.getLast?_eq_none_iff] at here
          exact Or.inl (by rw [begun, here, units_nil, List.length_nil])
      | some y =>
          refine Or.inr fun subject => continues ⟨rfl, y, here, ?_⟩
          rw [← subject, cur y here]
    have count : groups.begun + 1 = (units .subjects (xs ++ [x])).length := by
      rw [units_concat_new continues, List.length_append, begun, List.length_singleton]
    simp only [Groups.observe, if_pos fresh]
    exact ⟨⟨count, last rfl⟩, count⟩

/-! ## Skip -/

/-- The state of `skip` after some quads. -/
structure SkipAfter (n : Nat) (unit : Unit) (xs : List QuadRef) (op : Skip) : Prop where
  bound : op.n = n
  counts : op.unit = unit
  seen : unit = .quads → op.quadsSeen = xs.length
  tracks : unit = .subjects → Tracks op.groups xs

theorem SkipAfter.event {n : Nat} {unit : Unit} {xs : List QuadRef} {op : Skip}
    (after : SkipAfter n unit xs op) (x : QuadRef) :
    SkipAfter n unit (xs ++ [x]) (op.event x).1 ∧
      (op.event x).2 = if n < (units unit (xs ++ [x])).length then .forward else .swallow := by
  obtain ⟨rfl, rfl, seen, tracks⟩ := after
  cases counts : op.unit with
  | quads =>
      have next : op.quadsSeen + 1 = (xs ++ [x]).length := by
        rw [seen counts, List.length_append, List.length_singleton]
      have event : op.event x = ({ op with quadsSeen := op.quadsSeen + 1 },
          if op.n < op.quadsSeen + 1 then .forward else .swallow) := by
        simp only [Skip.event, counts]
      rw [event]
      exact ⟨⟨rfl, counts, fun _ => next, fun other => absurd other (by decide)⟩,
        by rw [length_units_quads, ← next]⟩
  | subjects =>
      obtain ⟨tracks', begun⟩ := (tracks counts).observe x
      have event : op.event x = ({ op with groups := (op.groups.observe x.s).1 },
          if op.n < (op.groups.observe x.s).2 then .forward else .swallow) := by
        simp only [Skip.event, counts]
      rw [event, begun]
      exact ⟨⟨rfl, counts, fun other => absurd other (by decide), fun _ => tracks'⟩, rfl⟩

theorem implements_skip (n : Nat) (unit : Unit) (finished : Nat) :
    stage.Implements ⟨(OpSpec.skip n unit).build, finished⟩ (fun _ => True)
      (OpSpec.skip n unit).apply (OpSpec.skip n unit).apply
      fun xs st => ∃ op, st.op = .skip op ∧ SkipAfter n unit xs op := by
  refine Middleware.Implements.of_slicing ?start ?nil ?grows ?step ?keeps ?passes ?full ?empty
  case start => exact ⟨_, rfl, rfl, rfl, fun _ => rfl, fun _ => Tracks.nil⟩
  case nil => simp only [OpSpec.apply, units_nil, List.drop_nil, List.flatten_nil]
  case grows =>
    intro xs x
    rw [skip_concat]
    split
    · exact Or.inr rfl
    · exact Or.inl rfl
  case step =>
    rintro xs x ⟨_, finished⟩ ⟨op, rfl, after⟩
    exact ⟨_, rfl, (after.event x).1⟩
  case keeps =>
    rintro xs x ⟨_, finished⟩ ⟨op, rfl, after⟩ kept
    change (op.event x).2 = .swallow ∨ (op.event x).2 = .halt at kept
    rw [(after.event x).2] at kept
    rw [skip_concat, if_neg fun past => ?_]
    rw [if_pos past] at kept
    rcases kept with kept | kept <;> cases kept
  case passes =>
    rintro xs x ⟨_, finished⟩ ⟨op, rfl, after⟩ passed
    change (op.event x).2 = .forward ∨ (op.event x).2 = .forwardHalt at passed
    rw [(after.event x).2] at passed
    rw [skip_concat, if_pos]
    by_contra inside
    rw [if_neg inside] at passed
    rcases passed with passed | passed <;> cases passed
  case full =>
    rintro xs x ⟨_, finished⟩ ys ⟨op, rfl, after⟩ halts
    change (op.event x).2 = .halt ∨ (op.event x).2 = .forwardHalt at halts
    rw [(after.event x).2] at halts
    split at halts <;> rcases halts with halts | halts <;> cases halts
  case empty =>
    rintro xs ⟨_, finished⟩ ⟨op, rfl, after⟩
    rfl

/-! ## Head -/

/-- The state of `head` after some quads. -/
structure HeadAfter (n : Nat) (unit : Unit) (xs : List QuadRef) (op : Head) : Prop where
  bound : op.n = n
  counts : op.unit = unit
  full : op.stopped = true → filled n unit xs = true
  out : op.stopped = false → unit = .quads → op.quadsOut = xs.length ∧ (xs.length < n ∨ xs = [])
  tracks : op.stopped = false → unit = .subjects → Tracks op.groups xs

/-- Once stopped only what has been given matters. -/
theorem HeadAfter.of_stopped {xs : List QuadRef} (op : Head) (stopped : op.stopped = true)
    (full : filled op.n op.unit xs = true) : HeadAfter op.n op.unit xs op := by
  refine ⟨rfl, rfl, fun _ => full, fun going => ?_, fun going => ?_⟩ <;>
  · rw [stopped] at going
    cases going

/-- What `head` does with the next quad, and what its function does with it. -/
theorem HeadAfter.event {n : Nat} {unit : Unit} {xs : List QuadRef} {op : Head}
    (after : HeadAfter n unit xs op) (x : QuadRef) :
    HeadAfter n unit (xs ++ [x]) (op.event x).1 ∧
      ((op.event x).2 = .forward ∧ filled n unit (xs ++ [x]) = false ∧
          (OpSpec.head n unit).apply (xs ++ [x]) = (OpSpec.head n unit).apply xs ++ [x] ∨
        (op.event x).2 = .forwardHalt ∧ filled n unit (xs ++ [x]) = true ∧
          (OpSpec.head n unit).apply (xs ++ [x]) = (OpSpec.head n unit).apply xs ++ [x] ∨
        (op.event x).2 = .halt ∧ filled n unit (xs ++ [x]) = true ∧
          (OpSpec.head n unit).apply (xs ++ [x]) = (OpSpec.head n unit).apply xs) := by
  obtain ⟨rfl, rfl, full, out, tracks⟩ := after
  cases stopped : op.stopped with
  | true =>
      have event : op.event x = (op, .halt) := by
        simp only [Head.event, stopped, if_true]
      rw [event]
      have full' := filled_append (full stopped) [x]
      exact ⟨HeadAfter.of_stopped op stopped full',
        Or.inr (Or.inr ⟨rfl, full', head_filled (full stopped) [x]⟩)⟩
  | false =>
      have halted : op.stopped ≠ true := by rw [stopped]; decide
      have going : ¬ op.stopped = true := halted
      cases counts : op.unit with
      | quads =>
          obtain ⟨count, room⟩ := out stopped counts
          have next : op.quadsOut + 1 = (xs ++ [x]).length := by
            rw [count, List.length_append, List.length_singleton]
          by_cases none : op.n = 0
          · have all : ∀ ys, (OpSpec.head op.n .quads).apply ys = [] := fun ys => by
              simp only [OpSpec.apply, none, List.take_zero, List.flatten_nil]
            have event : op.event x = ({ op with stopped := true }, .halt) := by
              simp only [Head.event, if_neg going, counts, if_pos none]
            have full' : filled op.n .quads (xs ++ [x]) = true := by
              simp [filled, none]
            rw [event, ← counts]
            rw [← counts] at all full'
            exact ⟨HeadAfter.of_stopped { op with stopped := true } rfl full',
              Or.inr (Or.inr ⟨rfl, full', by rw [all, all]⟩)⟩
          · have inside : (units .quads (xs ++ [x])).length ≤ op.n := by
              rw [length_units_quads, List.length_append, List.length_singleton]
              rcases room with room | rfl
              · omega
              · simp only [List.length_nil]
                omega
            have one : (OpSpec.head op.n .quads).apply (xs ++ [x])
                = (OpSpec.head op.n .quads).apply xs ++ [x] := by
              rw [head_concat, if_pos inside]
            by_cases last : op.n ≤ op.quadsOut + 1
            · have event : op.event x =
                  ({ op with quadsOut := op.quadsOut + 1, stopped := true }, .forwardHalt) := by
                simp only [Head.event, if_neg going, counts, if_neg none, if_pos last]
              have full' : filled op.n .quads (xs ++ [x]) = true := by
                rw [filled, ← next, decide_eq_true last]
                simp
              rw [event, ← counts]
              rw [← counts] at one full'
              exact ⟨HeadAfter.of_stopped
                { op with quadsOut := op.quadsOut + 1, stopped := true } rfl full',
                Or.inr (Or.inl ⟨rfl, full', one⟩)⟩
            · have event : op.event x = ({ op with quadsOut := op.quadsOut + 1 }, .forward) := by
                simp only [Head.event, if_neg going, counts, if_neg none, if_neg last]
              rw [event]
              refine ⟨⟨rfl, counts, fun other => absurd other halted,
                fun _ _ => ⟨next, Or.inl (by omega)⟩, fun _ other => absurd other (by decide)⟩,
                Or.inl ⟨rfl, ?_, one⟩⟩
              rw [filled, ← next, decide_eq_false last, Bool.and_false]
      | subjects =>
          obtain ⟨tracks', begun⟩ := (tracks stopped counts).observe x
          by_cases past : op.n < (op.groups.observe x.s).2
          · have event : op.event x =
                ({ op with groups := (op.groups.observe x.s).1, stopped := true }, .halt) := by
              simp only [Head.event, if_neg going, counts, if_pos past]
            rw [begun] at past
            have same : (OpSpec.head op.n .subjects).apply (xs ++ [x])
                = (OpSpec.head op.n .subjects).apply xs := by
              rw [head_concat, if_neg (by omega)]
            have full' : filled op.n .subjects (xs ++ [x]) = true := decide_eq_true past
            rw [event, ← counts]
            rw [← counts] at same full'
            exact ⟨HeadAfter.of_stopped
              { op with groups := (op.groups.observe x.s).1, stopped := true } rfl full',
              Or.inr (Or.inr ⟨rfl, full', same⟩)⟩
          · have event : op.event x =
                ({ op with groups := (op.groups.observe x.s).1 }, .forward) := by
              simp only [Head.event, if_neg going, counts, if_neg past]
            rw [begun] at past
            rw [event]
            refine ⟨⟨rfl, counts, fun other => absurd other halted,
              fun _ other => absurd other (by decide), fun _ _ => tracks'⟩,
              Or.inl ⟨rfl, decide_eq_false past, ?_⟩⟩
            rw [head_concat, if_pos (by omega)]

theorem implements_head (n : Nat) (unit : Unit) (finished : Nat) :
    stage.Implements ⟨(OpSpec.head n unit).build, finished⟩ (fun _ => True)
      (OpSpec.head n unit).apply (OpSpec.head n unit).apply
      fun xs st => ∃ op, st.op = .head op ∧ HeadAfter n unit xs op := by
  refine Middleware.Implements.of_slicing ?start ?nil ?grows ?step ?keeps ?passes ?full ?empty
  case start =>
    exact ⟨_, rfl, rfl, rfl, fun halted => absurd halted Bool.false_ne_true,
      fun _ _ => ⟨rfl, Or.inr rfl⟩, fun _ _ => Tracks.nil⟩
  case nil => simp only [OpSpec.apply, units_nil, List.take_nil, List.flatten_nil]
  case grows =>
    intro xs x
    rw [head_concat]
    split
    · exact Or.inr rfl
    · exact Or.inl rfl
  case step =>
    rintro xs x ⟨_, finished⟩ ⟨op, rfl, after⟩
    exact ⟨_, rfl, (after.event x).1⟩
  case keeps =>
    rintro xs x ⟨_, finished⟩ ⟨op, rfl, after⟩ kept
    change (op.event x).2 = .swallow ∨ (op.event x).2 = .halt at kept
    rcases (after.event x).2 with ⟨act, -, -⟩ | ⟨act, -, -⟩ | ⟨-, -, same⟩
    · rw [act] at kept
      rcases kept with kept | kept <;> cases kept
    · rw [act] at kept
      rcases kept with kept | kept <;> cases kept
    · exact same
  case passes =>
    rintro xs x ⟨_, finished⟩ ⟨op, rfl, after⟩ passed
    change (op.event x).2 = .forward ∨ (op.event x).2 = .forwardHalt at passed
    rcases (after.event x).2 with ⟨-, -, one⟩ | ⟨-, -, one⟩ | ⟨act, -, -⟩
    · exact one
    · exact one
    · rw [act] at passed
      rcases passed with passed | passed <;> cases passed
  case full =>
    rintro xs x ⟨_, finished⟩ ys ⟨op, rfl, after⟩ halts
    change (op.event x).2 = .halt ∨ (op.event x).2 = .forwardHalt at halts
    have full : filled n unit (xs ++ [x]) = true := by
      rcases (after.event x).2 with ⟨act, -, -⟩ | ⟨-, full, -⟩ | ⟨-, full, -⟩
      · rw [act] at halts
        rcases halts with halts | halts <;> cases halts
      · exact full
      · exact full
    rw [← List.singleton_append, ← List.append_assoc]
    exact head_filled full ys
  case empty =>
    rintro xs ⟨_, finished⟩ ⟨op, rfl, after⟩
    rfl

/-! ## Tail -/

section LastOf

variable {α : Type} {n : Nat}

/-- The last elements, `n` of them if there are. -/
def lastOf (n : Nat) (l : List α) : List α := l.drop (l.length - n)

theorem lastOf_nil : lastOf n ([] : List α) = [] := List.drop_nil

theorem lastOf_zero (l : List α) : lastOf 0 l = [] := by
  rw [lastOf, Nat.sub_zero, List.drop_length]

theorem lastOf_map {β : Type} (f : α → β) (l : List α) : lastOf n (l.map f) = (lastOf n l).map f := by
  rw [lastOf, lastOf, List.length_map, List.map_drop]

theorem lastOf_concat (positive : 0 < n) (front : List α) (x : α) :
    lastOf n (front ++ [x]) = front.drop (front.length + 1 - n) ++ [x] := by
  rw [lastOf, List.length_append, List.length_singleton,
    List.drop_append_of_le_length (by omega)]

theorem popFull_lastOf (positive : 0 < n) (l : List α) (x : α) :
    Tail.popFull n (lastOf n l) ++ [x] = lastOf n (l ++ [x]) := by
  rw [lastOf_concat positive, Tail.popFull]
  have len : (lastOf n l).length = min n l.length := by
    rw [lastOf, List.length_drop]
    omega
  split
  case isTrue full =>
    rw [len] at full
    rw [lastOf, List.drop_drop]
    congr 2
    omega
  case isFalse room =>
    rw [len] at room
    rw [lastOf]
    congr 2
    omega

theorem pushBack_lastOf (positive : 0 < n) (front : List (List α)) (last : List α) (x : α) :
    Tail.pushBack (lastOf n (front ++ [last])) x = lastOf n (front ++ [last ++ [x]]) := by
  rw [lastOf_concat positive, lastOf_concat positive, Tail.pushBack, List.modifyLast_concat]

end LastOf

/-- The state of `tail` after some quads. -/
structure TailAfter (n : Nat) (unit : Unit) (xs : List QuadRef) (op : Tail) : Prop where
  bound : op.n = n
  counts : op.unit = unit
  quads : op.quads = if unit = .quads then lastOf n (xs.map OwnedQuad.fromRef) else []
  groups : op.groups =
    if unit = .subjects then lastOf n ((units unit xs).map (List.map OwnedQuad.fromRef)) else []
  started : n ≠ 0 → unit = .subjects →
    (op.started = true ↔ xs ≠ []) ∧ ∀ y ∈ xs.getLast?, op.curSubject = y.s

theorem TailAfter.event {n : Nat} {unit : Unit} {xs : List QuadRef} {op : Tail}
    (after : TailAfter n unit xs op) (x : QuadRef) :
    TailAfter n unit (xs ++ [x]) (op.event x).1 ∧ (op.event x).2 = .swallow := by
  obtain ⟨rfl, rfl, quads, groups, started⟩ := after
  by_cases none : op.n = 0
  · have event : op.event x = (op, .swallow) := by simp only [Tail.event, if_pos none]
    rw [event]
    refine ⟨⟨rfl, rfl, ?_, ?_, fun some => absurd none some⟩, rfl⟩
    · rw [quads, none, lastOf_zero, lastOf_zero]
    · rw [groups, none, lastOf_zero, lastOf_zero]
  · have positive : 0 < op.n := Nat.pos_of_ne_zero none
    cases counts : op.unit with
    | quads =>
        rw [counts] at quads groups
        have event : op.event x = ({ op with
            quads := Tail.popFull op.n op.quads ++ [OwnedQuad.fromRef x] }, .swallow) := by
          simp only [Tail.event, if_neg none, counts]
        rw [event]
        refine ⟨⟨rfl, counts, ?_, ?_, fun _ other => absurd other (by decide)⟩, rfl⟩
        · rw [if_pos rfl] at quads ⊢
          rw [List.map_append, List.map_singleton, ← popFull_lastOf positive, ← quads]
        · rw [if_neg (by decide)] at groups ⊢
          exact groups
    | subjects =>
        rw [counts] at quads groups
        rw [if_neg (by decide)] at quads
        rw [if_pos rfl] at groups
        obtain ⟨begun, cur⟩ := started none counts
        have last : ∀ {c : Bytes}, c = x.s → ∀ y ∈ (xs ++ [x]).getLast?, c = y.s := by
          intro c same y here
          rw [List.getLast?_concat, Option.mem_some] at here
          rw [same, here]
        by_cases continues : Continues .subjects xs x
        · obtain ⟨front, run, before, after⟩ := units_concat_continues continues
          obtain ⟨-, y, here, same⟩ := continues
          have nonempty : xs ≠ [] := fun empty => by
            rw [empty] at here
            cases here
          have kept : ¬ (op.started = false ∨ op.curSubject ≠ x.s) := by
            rintro (fresh | other)
            · rw [begun.mpr nonempty] at fresh
              cases fresh
            · exact other ((cur y here).trans same)
          have event : op.event x = ({ op with
              groups := Tail.pushBack op.groups (OwnedQuad.fromRef x) }, .swallow) := by
            simp only [Tail.event, if_neg none, counts, if_neg kept]
          rw [event]
          refine ⟨⟨rfl, counts, quads, ?_, fun _ _ => ⟨?_, ?_⟩⟩, rfl⟩
          · rw [if_pos rfl, after, List.map_append, List.map_singleton, List.map_append,
              List.map_singleton, ← pushBack_lastOf positive, groups, before, List.map_append,
              List.map_singleton]
          · exact iff_of_true (begun.mpr nonempty) (by simp)
          · exact last ((cur y here).trans same)
        · have fresh : op.started = false ∨ op.curSubject ≠ x.s := by
            cases here : xs.getLast? with
            | none =>
                rw [List.getLast?_eq_none_iff] at here
                refine Or.inl (Bool.eq_false_iff.mpr fun going => ?_)
                exact begun.mp going here
            | some y =>
                refine Or.inr fun subject => continues ⟨rfl, y, here, ?_⟩
                rw [← subject, cur y here]
          have event : op.event x = ({ op with
              started := true
              curSubject := x.s
              groups := Tail.pushBack (Tail.popFull op.n op.groups ++ [[]])
                (OwnedQuad.fromRef x) }, .swallow) := by
            simp only [Tail.event, if_neg none, counts, if_pos fresh]
          rw [event]
          refine ⟨⟨rfl, counts, quads, ?_, fun _ _ => ⟨iff_of_true rfl (by simp), last rfl⟩⟩, rfl⟩
          rw [if_pos rfl, units_concat_new continues, List.map_append, List.map_singleton,
            List.map_singleton, groups, popFull_lastOf positive, pushBack_lastOf positive]
          rfl

theorem map_asRef {xs : List QuadRef} (packable : ∀ q ∈ xs, Packable q) :
    (xs.map OwnedQuad.fromRef).map OwnedQuad.asRef = xs.map some := by
  rw [List.map_map]
  exact List.map_congr_left fun q member => OwnedQuad.asRef_fromRef (packable q member)

/-- What the function keeps is among the quads. -/
theorem tail_sublist (n : Nat) (unit : Unit) (xs : List QuadRef) :
    ((OpSpec.tail n unit).apply xs).Sublist xs := flatten_sublist (List.drop_sublist _ _)

theorem tail_zero (unit : Unit) (xs : List QuadRef) : (OpSpec.tail 0 unit).apply xs = [] := by
  simp only [OpSpec.apply, Nat.sub_zero, List.drop_length, List.flatten_nil]

theorem TailAfter.flushed {n : Nat} {unit : Unit} {xs : List QuadRef} {op : Tail}
    (after : TailAfter n unit xs op) : op.flushed
      = (((OpSpec.tail n unit).apply xs).map OwnedQuad.fromRef).map OwnedQuad.asRef := by
  rw [Tail.flushed, after.quads, after.groups]
  congr 1
  cases unit with
  | quads =>
      rw [if_pos rfl, if_neg (by decide), List.flatten_nil, List.append_nil, lastOf_map]
      congr 1
      simp only [OpSpec.apply, units, List.length_map, ← List.map_drop]
      rw [← List.flatMap_def, List.flatMap_singleton']
      rfl
  | subjects =>
      rw [if_neg (by decide), if_pos rfl, List.nil_append, lastOf_map, ← List.map_flatten]
      rfl

theorem implements_tail (n : Nat) (unit : Unit) (finished : Nat) :
    stage.Implements ⟨(OpSpec.tail n unit).build, finished⟩ (OpSpec.tail n unit).Fits
      (OpSpec.tail n unit).apply (fun _ => [])
      fun xs st => ∃ op, st.op = .tail op ∧ TailAfter n unit xs op := by
  refine Middleware.Implements.of_buffering ?start ?shorter ?step ?swallows ?rest
  case start =>
    have none : TailAfter n unit [] (Tail.new n unit) := by
      refine ⟨rfl, rfl, ?_, ?_, fun _ _ => ⟨iff_of_false Bool.false_ne_true (by simp), ?_⟩⟩
      · rw [List.map_nil, lastOf_nil, ite_self]
        rfl
      · rw [units_nil, List.map_nil, lastOf_nil, ite_self]
        rfl
      · rintro y ⟨⟩
    exact ⟨_, rfl, none⟩
  case shorter =>
    rintro xs ys (none | packable)
    · exact Or.inl none
    · exact Or.inr fun q member => packable q (List.mem_append_left ys member)
  case step =>
    rintro xs x ⟨_, finished⟩ - ⟨op, rfl, after⟩
    exact ⟨_, rfl, (after.event x).1⟩
  case swallows =>
    rintro xs x ⟨_, finished⟩ ⟨op, rfl, after⟩
    exact (after.event x).2
  case rest =>
    rintro xs ⟨_, finished⟩ fits ⟨op, rfl, after⟩
    refine after.flushed.trans (map_asRef fun q member => ?_)
    rcases fits with rfl | packable
    · rw [tail_zero] at member
      exact absurd member List.not_mem_nil
    · exact packable q ((tail_sublist n unit xs).subset member)

end Graphy.Pipe
