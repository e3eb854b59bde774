import Graphy.Turtle.Quad

/-!
# The quad buffer

Handles keep their ends modulo 2^32.  Quads pushed one after another are read back exactly
when they are short together; else slicing fails.
-/

namespace Graphy.Turtle

/-! ## Handles -/

/-- The arena has grown. -/
def Arena.Grows (a b : Arena) : Prop := ∃ more, b.bytes = a.bytes ++ more

theorem Arena.Grows.refl (a : Arena) : a.Grows a := ⟨[], by simp⟩

theorem Arena.Grows.trans {a b c : Arena} (h : a.Grows b) (h' : b.Grows c) : a.Grows c := by
  obtain ⟨more, rfl'⟩ := h
  obtain ⟨more', same⟩ := h'
  exact ⟨more ++ more', by rw [same, rfl', List.append_assoc]⟩

theorem Arena.grows_append (a : Arena) (bytes : Bytes) : a.Grows (a.append bytes) :=
  ⟨bytes, rfl⟩

theorem Arena.Grows.length_le {a b : Arena} (h : a.Grows b) :
    a.bytes.length ≤ b.bytes.length := by
  obtain ⟨more, same⟩ := h
  rw [same, List.length_append]
  omega

/-- While the arena is short, the handle of appended bytes gives them back. -/
theorem get_handle {a b : Arena} {bytes : Bytes} (grows : (a.append bytes).Grows b)
    (short : a.bytes.length + bytes.length < 2 ^ 32) :
    b.get ((a.append bytes).handleFrom a.mark) = some bytes := by
  obtain ⟨more, same⟩ := grows
  have start : a.bytes.length % 2 ^ 32 = a.bytes.length := Nat.mod_eq_of_lt (by omega)
  have stop : (a.bytes.length + bytes.length) % 2 ^ 32 = a.bytes.length + bytes.length :=
    Nat.mod_eq_of_lt short
  have inside : a.bytes.length + bytes.length ≤ b.bytes.length := by
    rw [same, Arena.append, List.length_append, List.length_append]
    omega
  unfold Arena.get Arena.handleFrom Arena.mark
  simp only [Arena.append, List.length_append, start, stop]
  rw [if_pos ⟨by omega, inside⟩, same]
  simp [Arena.append]

/-- What a handle gives back is never longer than the appended bytes, and too short by
2^32 bytes when these overrun the arena. -/
theorem length_get_handle {a b : Arena} {bytes got : Bytes}
    (h : b.get ((a.append bytes).handleFrom a.mark) = some got) :
    got.length ≤ bytes.length ∧ got.length < 2 ^ 32 ∧
      (a.bytes.length < 2 ^ 32 → 2 ^ 32 ≤ a.bytes.length + bytes.length →
        got.length + 2 ^ 32 ≤ bytes.length) := by
  unfold Arena.get at h
  split at h
  · rename_i inside
    simp only [Arena.handleFrom, Arena.mark, Arena.append, List.length_append] at h inside
    have length := congrArg List.length (Option.some.inj h)
    rw [List.length_take, List.length_drop] at length
    have small := Nat.mod_lt (a.bytes.length + bytes.length) (show 0 < 2 ^ 32 by omega)
    omega
  · cases h

/-! ## The quad buffer -/

/-- Short bytes come back exactly when the arena is still short behind them. -/
theorem get_small {a b : Arena} {bytes : Bytes} (grows : (a.append bytes).Grows b)
    (short : a.bytes.length < 2 ^ 32) (small : bytes.length < 2 ^ 32) :
    b.get ((a.append bytes).handleFrom a.mark) =
      if a.bytes.length + bytes.length < 2 ^ 32 then some bytes else none := by
  split
  · rename_i fits
    exact get_handle grows fits
  · rename_i overrun
    cases read : b.get ((a.append bytes).handleFrom a.mark) with
    | none => rfl
    | some got =>
        have wraps := (length_get_handle read).2.2 short (by omega)
        omega

/-- The same for an optional graph label, which takes nothing when it is missing. -/
theorem getGraph_small {a b : Arena} {g : Option Bytes} (grows : (a.append (g.getD [])).Grows b)
    (short : a.bytes.length < 2 ^ 32) (small : (g.getD []).length < 2 ^ 32) :
    QuadBuf.getGraph b (g.map fun _ => (a.append (g.getD [])).handleFrom a.mark) =
      if a.bytes.length + (g.getD []).length < 2 ^ 32 then some g else none := by
  cases g with
  | none =>
      rw [if_pos (by simpa using short)]
      rfl
  | some g =>
      have get := get_small grows short small
      rw [Option.getD_some] at get ⊢
      rw [Option.map_some, QuadBuf.getGraph, get]
      split <;> rfl

theorem push_grows (buf : QuadBuf) (r : QuadRec) : buf.arena.Grows (buf.push r).arena :=
  (buf.arena.grows_append r.s).trans (((Arena.grows_append _ r.p).trans
    (Arena.grows_append _ r.o)).trans (Arena.grows_append _ (r.g.getD [])))

theorem length_push (buf : QuadBuf) (r : QuadRec) :
    (buf.push r).arena.bytes.length = buf.arena.bytes.length + r.size := by
  simp only [QuadBuf.push, QuadBuf.pushQuadFrom, Arena.append, List.length_append, QuadRec.size]
  omega

/-- Every term of the record is short. -/
def QuadRec.Small (r : QuadRec) : Prop :=
  r.s.length < 2 ^ 32 ∧ r.p.length < 2 ^ 32 ∧ r.o.length < 2 ^ 32 ∧ (r.g.getD []).length < 2 ^ 32

/-- A recorded quad is read back exactly when the buffer is still short behind it. -/
theorem read_push {buf : QuadBuf} {r : QuadRec} (small : r.Small)
    (short : buf.arena.bytes.length < 2 ^ 32) :
    ∃ h, (buf.push r).quads = buf.quads ++ [h] ∧ ∀ later, (buf.push r).arena.Grows later →
      QuadBuf.read later h =
        if buf.arena.bytes.length + r.size < 2 ^ 32 then some r else none := by
  refine ⟨_, rfl, fun later behind => ?_⟩
  obtain ⟨smallS, smallP, smallO, smallG⟩ := small
  have behindG : (((buf.arena.append r.s).append r.p).append r.o).Grows later :=
    (Arena.grows_append _ (r.g.getD [])).trans behind
  have behindP := (Arena.grows_append _ r.o).trans behindG
  have behindS := (Arena.grows_append _ r.p).trans behindP
  have getS := get_small behindS short smallS
  have lengthS : (buf.arena.append r.s).bytes.length = buf.arena.bytes.length + r.s.length :=
    List.length_append
  have lengthP : ((buf.arena.append r.s).append r.p).bytes.length =
      (buf.arena.append r.s).bytes.length + r.p.length := List.length_append
  have lengthO : (((buf.arena.append r.s).append r.p).append r.o).bytes.length =
      ((buf.arena.append r.s).append r.p).bytes.length + r.o.length := List.length_append
  have size : r.size = r.s.length + r.p.length + r.o.length + (r.g.getD []).length := rfl
  simp only [QuadBuf.read, Option.bind_eq_bind, Option.pure_def, getS]
  by_cases fitsS : buf.arena.bytes.length + r.s.length < 2 ^ 32
  · have getP := get_small behindP (by omega) smallP
    rw [if_pos fitsS, Option.bind_some, getP]
    by_cases fitsP : (buf.arena.append r.s).bytes.length + r.p.length < 2 ^ 32
    · have getO := get_small behindG (by omega) smallO
      rw [if_pos fitsP, Option.bind_some, getO]
      by_cases fitsO : ((buf.arena.append r.s).append r.p).bytes.length + r.o.length < 2 ^ 32
      · rw [if_pos fitsO, Option.bind_some]
        have getG := getGraph_small behind (by omega) smallG
        simp only [getG]
        by_cases fitsG : (((buf.arena.append r.s).append r.p).append r.o).bytes.length +
            (r.g.getD []).length < 2 ^ 32
        · rw [if_pos fitsG, if_pos (by omega)]
          rfl
        · rw [if_neg fitsG, if_neg (by omega)]
          rfl
      · rw [if_neg fitsO, if_neg (by omega)]
        rfl
    · rw [if_neg fitsP, if_neg (by omega)]
      rfl
  · rw [if_neg fitsS, if_neg (by omega)]
    rfl

theorem pushes_grow (rs : List QuadRec) (buf : QuadBuf) :
    buf.arena.Grows (rs.foldl QuadBuf.push buf).arena := by
  induction rs generalizing buf with
  | nil => exact .refl buf.arena
  | cons r rs ih => exact (push_grows buf r).trans (ih _)

/-- By induction on the quads: all are read back, or slicing fails. -/
theorem read_pushes {rs : List QuadRec} (small : ∀ r ∈ rs, r.Small) (buf : QuadBuf) :
    ∃ hs, (rs.foldl QuadBuf.push buf).quads = buf.quads ++ hs ∧
      (buf.arena.bytes.length < 2 ^ 32 → ∀ later,
        (rs.foldl QuadBuf.push buf).arena.Grows later →
        hs.mapM (QuadBuf.read later) =
          if buf.arena.bytes.length + (rs.map QuadRec.size).sum < 2 ^ 32 then
            some rs else none) := by
  induction rs generalizing buf with
  | nil =>
      refine ⟨[], (List.append_nil _).symm, fun short later _ => ?_⟩
      rw [if_pos (by simpa using short)]
      rfl
  | cons r rs ih =>
      have smallR := small r (List.mem_cons_self ..)
      obtain ⟨hs, quads, reads⟩ := ih (fun r mem => small r (List.mem_cons_of_mem _ mem))
        (buf.push r)
      have first : ∃ h, (buf.push r).quads = buf.quads ++ [h] := ⟨_, rfl⟩
      obtain ⟨h, pushed⟩ := first
      refine ⟨h :: hs, by rw [List.foldl_cons, quads, pushed]; simp, ?_⟩
      intro short later behind
      obtain ⟨h', pushed', read⟩ := read_push smallR short
      have same : h' = h := by simpa [pushed] using pushed'.symm
      subst same
      have firstRead := read later ((pushes_grow rs _).trans behind)
      rw [List.mapM_cons, firstRead, List.map_cons, List.sum_cons]
      by_cases fits : buf.arena.bytes.length + r.size < 2 ^ 32
      · have rest := reads (by rw [length_push]; exact fits) later behind
        rw [length_push] at rest
        rw [if_pos fits, rest, ← Nat.add_assoc]
        by_cases fitsAll : buf.arena.bytes.length + r.size + (rs.map QuadRec.size).sum < 2 ^ 32
        · rw [if_pos fitsAll, if_pos fitsAll]
          rfl
        · rw [if_neg fitsAll, if_neg fitsAll]
          rfl
      · rw [if_neg fits, if_neg (by omega)]
        rfl

/-- Short records pushed one after another are what the buffer holds, exactly when they are
short together. -/
theorem iter_pushes {rs : List QuadRec} (small : ∀ r ∈ rs, r.Small) :
    (rs.foldl QuadBuf.push .empty).iter =
      if (rs.map QuadRec.size).sum < 2 ^ 32 then some rs else none := by
  obtain ⟨hs, quads, reads⟩ := read_pushes small .empty
  have all := reads (by decide) _ (.refl _)
  rw [QuadBuf.iter, quads]
  simpa [QuadBuf.empty, Arena.empty] using all

theorem small_of_sum {rs : List QuadRec} (short : (rs.map QuadRec.size).sum < 2 ^ 32) :
    ∀ r ∈ rs, r.Small := by
  induction rs with
  | nil => exact nofun
  | cons r rs ih =>
      rw [List.map_cons, List.sum_cons] at short
      intro r' mem
      rcases List.mem_cons.mp mem with rfl | mem
      · unfold QuadRec.size at short
        exact ⟨by omega, by omega, by omega, by omega⟩
      · exact ih (by omega) r' mem

theorem length_pushes (rs : List QuadRec) (buf : QuadBuf) :
    (rs.foldl QuadBuf.push buf).arena.bytes.length =
      buf.arena.bytes.length + (rs.map QuadRec.size).sum := by
  induction rs generalizing buf with
  | nil => rfl
  | cons r rs ih => rw [List.foldl_cons, ih, length_push, List.map_cons, List.sum_cons, Nat.add_assoc]

theorem iter_of_short {rs : List QuadRec}
    (short : (rs.foldl QuadBuf.push .empty).arena.bytes.length < 2 ^ 32) :
    (rs.foldl QuadBuf.push .empty).iter = some rs := by
  have sum : (rs.map QuadRec.size).sum < 2 ^ 32 := by
    rw [length_pushes] at short
    exact Nat.lt_of_le_of_lt (Nat.le_add_left ..) short
  rw [iter_pushes (small_of_sum sum), if_pos sum]

end Graphy.Turtle
