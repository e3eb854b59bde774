import Graphy.Turtle.Proofs.Highlight
import Graphy.Turtle.Proofs.Stable

/-!
# Feeding the cursor

What the cursor reads before a chunk is fed it reads behind it too, and where it asks for more
it goes on as if the chunk had been there from the start.
-/

namespace Graphy.Turtle.Cursor

/-! ## Accepting and feeding -/

theorem advance_append (p : Position) (a b : Bytes) :
    p.advance (a ++ b) = (p.advance a).advance b := by
  induction a generalizing p with
  | nil => rfl
  | cons x a ih => exact ih _

theorem accept_accept (c : Cursor) (m n : Nat) : (c.accept m).accept n = c.accept (m + n) := by
  unfold accept
  simp only [List.drop_drop, ← advance_append, List.take_add]

theorem accept_zero (c : Cursor) : c.accept 0 = c := rfl

theorem feed_accept (c : Cursor) (chunk : Bytes) {n : Nat} (le : n ≤ c.rest.length) :
    (c.feed chunk).accept n = (c.accept n).feed chunk := by
  unfold accept feed
  simp only [drop_longer chunk le, take_longer chunk le]

theorem feed_feed (c : Cursor) (a b : Bytes) : (c.feed a).feed b = c.feed (a ++ b) := by
  unfold feed
  simp only [List.append_assoc]

theorem feed_nil (c : Cursor) : c.feed [] = c := by
  unfold feed
  simp only [List.append_nil]

/-! ## Skipping -/

/-- Skipping goes on behind any spaces it begins with. -/
theorem skipSpace_spaces (eof : Bool) {c : Cursor} {w r : Bytes} (split : c.rest = w ++ r)
    (white : ∀ b ∈ w, isSpace b = true) :
    c.skipSpace eof = (c.accept w.length).skipSpace eof := by
  cases w with
  | nil => rfl
  | cons b w =>
      have space := white b (List.mem_cons_self ..)
      have tail : ∀ a ∈ w, isSpace a = true := fun a mem => white a (List.mem_cons_of_mem b mem)
      have run : (w ++ r).takeWhile isSpace = w ++ r.takeWhile isSpace :=
        List.takeWhile_append_of_pos tail
      have behind : (c.accept (b :: w).length).rest = r := by
        unfold accept
        simp only
        rw [split, List.drop_left]
      rw [skipSpace_cons (split.trans (List.cons_append ..)), if_pos space, run]
      cases r with
      | nil =>
          rw [List.takeWhile_nil, List.append_nil, Nat.add_comm]
          rfl
      | cons a r =>
          by_cases more : isSpace a = true
          · rw [List.takeWhile_cons_of_pos more, skipSpace_cons behind, if_pos more,
              accept_accept]
            congr 2
            simp only [List.length_append, List.length_cons]
            omega
          · rw [List.takeWhile_cons_of_neg more, List.append_nil, Nat.add_comm]
            rfl

/-- Skipping twice skips nothing more. -/
theorem skipSpace_again (eof : Bool) (c : Cursor) :
    ((c.skipSpace eof).2).skipSpace eof = c.skipSpace eof := by
  fun_induction skipSpace eof c with
  | case1 c ended => exact skipSpace_nil ended
  | case2 c b rest whole space ih => exact ih
  | case3 c rest i found whole space ih => exact ih
  | case4 c rest found ended whole space =>
      refine skipSpace_nil ?_
      unfold accept
      exact List.drop_length
  | case5 c rest found more whole space =>
      rw [skipSpace_cons whole, if_neg space, if_pos rfl, found]
      exact if_neg more
  | case6 c b rest whole space comment =>
      rw [skipSpace_cons whole, if_neg space, if_neg comment]

/-- What is left where skipping stops for want of more. -/
def Pending (r : Bool × Cursor) : Prop := r.1 = false ∨ r.2.rest = []

theorem skipSpace_feed (eof : Bool) (chunk : Bytes) (c : Cursor) :
    (Pending (c.skipSpace false) →
      (c.feed chunk).skipSpace eof = ((c.skipSpace false).2.feed chunk).skipSpace eof) ∧
    (¬ Pending (c.skipSpace false) →
      (c.feed chunk).skipSpace eof = (true, (c.skipSpace false).2.feed chunk)) := by
  fun_induction skipSpace false c with
  | case1 c ended => exact ⟨fun _ => rfl, fun settled => absurd (.inr ended) settled⟩
  | case2 c b rest whole space ih =>
      have run := List.prefix_iff_eq_take.mp (List.takeWhile_prefix isSpace (l := rest))
      have le := length_takeWhile_le isSpace rest
      have white : ∀ a ∈ b :: rest.takeWhile isSpace, isSpace a = true := by
        intro a mem
        rcases List.mem_cons.mp mem with rfl | later
        · exact space
        · exact List.mem_takeWhile_imp later
      have split : (c.feed chunk).rest = (b :: rest.takeWhile isSpace) ++
          (rest.dropWhile isSpace ++ chunk) := by
        show c.rest ++ chunk = _
        rw [whole, List.cons_append, List.cons_append, ← List.append_assoc,
          List.takeWhile_append_dropWhile]
      have through : (c.feed chunk).skipSpace eof =
          ((c.accept (1 + (rest.takeWhile isSpace).length)).feed chunk).skipSpace eof := by
        rw [skipSpace_spaces eof split white, List.length_cons, Nat.add_comm, feed_accept]
        rw [whole, List.length_cons]
        omega
      rw [through]
      exact ih
  | case3 c rest i found whole space ih =>
      have fed : (c.feed chunk).rest = 0x23 :: (rest ++ chunk) := by
        show c.rest ++ chunk = _
        rw [whole, List.cons_append]
      have through : (c.feed chunk).skipSpace eof =
          ((c.accept (i + 2)).feed chunk).skipSpace eof := by
        have inside := idxOf?_lt found
        rw [skipSpace_cons fed, if_neg space, if_pos rfl, idxOf?_longer chunk found]
        rw [← feed_accept]
        rw [whole, List.length_cons]
        omega
      rw [through]
      exact ih
  | case4 c rest found ended whole space => cases ended
  | case5 c rest found more => exact ⟨fun _ => rfl, fun settled => absurd (.inl rfl) settled⟩
  | case6 c b rest whole space comment =>
      have fed : (c.feed chunk).rest = b :: (rest ++ chunk) := by
        show c.rest ++ chunk = _
        rw [whole, List.cons_append]
      refine ⟨?_, fun _ => ?_⟩
      · rintro (stuck | ended)
        · cases stuck
        · cases whole.symm.trans ended
      · rw [skipSpace_cons fed, if_neg space, if_neg comment]

/-! ## The next token -/

theorem skipSpace_false {c c' : Cursor} (h : c.skipSpace false = (true, c')) (more : c'.rest ≠ []) :
    ¬ Pending (c.skipSpace false) := by
  rw [h]
  rintro (stuck | ended)
  · cases stuck
  · exact more ended

variable {trusted : Bool} {c c' : Cursor}

theorem tokenPosition_feed (c : Cursor) (chunk : Bytes) {n : Nat} (le : n ≤ c.rest.length) :
    (c.feed chunk).tokenPosition n = c.tokenPosition n := by
  unfold tokenPosition feed
  simp only [take_longer chunk le]

/-- A token begins behind the space. -/
theorem next_token {eof : Bool} {p : Position} {t : Token}
    (h : c.next eof trusted = (.token p t, c')) : ∃ c₁ n, c.skipSpace eof = (true, c₁) ∧
      c₁.rest ≠ [] ∧ lexToken eof trusted c₁.rest = .done (n, t) ∧ p = c₁.tokenPosition n ∧
      c' = c₁.accept n := by
  unfold next at h
  split at h
  · cases h
  · rename_i c₁ skipped
    split at h
    · split at h <;> cases h
    · rename_i more
      split at h
      · cases h
      · cases h
      · rename_i n t found
        cases h
        exact ⟨c₁, n, skipped, more, found, rfl, rfl⟩

theorem next_of_done {eof : Bool} {c₁ : Cursor} {n : Nat} {t : Token}
    (skipped : c.skipSpace eof = (true, c₁)) (more : c₁.rest ≠ [])
    (read : lexToken eof trusted c₁.rest = .done (n, t)) :
    c.next eof trusted = (.token (c₁.tokenPosition n) t, c₁.accept n) := by
  unfold next
  rw [skipped]
  dsimp only
  split
  · rename_i none
    exact absurd none more
  · rw [read]

theorem next_of_error {eof : Bool} {c₁ : Cursor} {off : Nat} {message : String}
    (skipped : c.skipSpace eof = (true, c₁)) (more : c₁.rest ≠ [])
    (read : lexToken eof trusted c₁.rest = .error off message) :
    c.next eof trusted =
      (.error ⟨message, c₁.position.advance (c₁.rest.take off)⟩, c₁) := by
  unfold next
  rw [skipped]
  dsimp only
  split
  · rename_i none
    exact absurd none more
  · rw [read]

/-- At the end of the input no bytes are left. -/
theorem rest_of_eof {eof : Bool} {p : Position} (h : c.next eof trusted = (.eof p, c')) :
    c'.rest = [] := by
  unfold next at h
  split at h
  · cases h
  · split at h
    · rename_i ended
      split at h
      · cases h
        exact ended
      · cases h
    · split at h <;> cases h

section Fed

variable (eof : Bool) (chunk : Bytes)

theorem next_feed_token {p : Position} {t : Token} (h : c.next false trusted = (.token p t, c')) :
    (c.feed chunk).next eof trusted = (.token p t, c'.feed chunk) := by
  obtain ⟨c₁, n, skipped, more, read, rfl, rfl⟩ := next_token h
  have through := (skipSpace_feed eof chunk c).2 (skipSpace_false skipped more)
  rw [skipped] at through
  have settled := lexToken_settled false trusted more
  have same := lexToken_extends eof trusted c₁.rest chunk
  rw [read] at settled same
  have fed : (c₁.feed chunk).rest ≠ [] := by
    show c₁.rest ++ chunk ≠ []
    simp [more]
  rw [next_of_done through fed (same (by simp)), tokenPosition_feed c₁ chunk settled.1,
    feed_accept c₁ chunk settled.1]

theorem next_feed_error {e : ParseError} (h : c.next false trusted = (.error e, c')) :
    (c.feed chunk).next eof trusted = (.error e, c'.feed chunk) := by
  obtain ⟨skipped, more, off, read, position⟩ := next_error h
  have through : c.skipSpace false = (true, c') := by
    unfold next at h
    split at h
    · cases h
    · rename_i c₁ found
      rw [found] at skipped ⊢
      exact congrArg (Prod.mk true) skipped
  have through' := (skipSpace_feed eof chunk c).2 (skipSpace_false through more)
  rw [through] at through'
  have settled := lexToken_settled false trusted more
  have same := lexToken_extends eof trusted c'.rest chunk
  rw [read] at settled same
  have fed : (c'.feed chunk).rest ≠ [] := by
    show c'.rest ++ chunk ≠ []
    simp [more]
  rw [next_of_error through' fed (same (by simp))]
  have taken : (c'.feed chunk).rest.take off = c'.rest.take off := take_longer chunk settled.1
  rw [taken]
  show (Lexed.error ⟨e.message, c'.position.advance (c'.rest.take off)⟩, c'.feed chunk) = _
  rw [← position]

/-- Where the lexer asks for more, it goes on behind the chunk as if it had been there. -/
theorem next_feed_needMore (h : c.next false trusted = (.needMore, c')) :
    (c.feed chunk).next eof trusted = (c'.feed chunk).next eof trusted := by
  have skips : (c.skipSpace false).2 = c' := by
    unfold next at h
    split at h
    · rename_i c₁ skipped
      cases h
      rw [skipped]
    · rename_i c₁ skipped
      split at h
      · split at h
        · cases h
        · cases h
          rw [skipped]
      · split at h
        · cases h
          rw [skipped]
        · cases h
        · cases h
  obtain ⟨stuck, settled⟩ := skipSpace_feed eof chunk c
  by_cases pending : Pending (c.skipSpace false)
  · rw [← skips]
    unfold next
    rw [stuck pending]
  · have again : (c'.feed chunk).skipSpace eof = (true, c'.feed chunk) := by
      have same := skipSpace_again false c
      rw [skips] at same
      rw [← same] at pending
      rw [(skipSpace_feed eof chunk c').2 pending, same, skips]
    unfold next
    rw [settled pending, again, skips]

theorem next_ne_eof {p : Position} : c.next false trusted ≠ (.eof p, c') := by
  intro h
  unfold next at h
  split at h
  · cases h
  · split at h
    · split at h
      · rename_i ended
        cases ended
      · cases h
    · split at h <;> cases h

end Fed

end Graphy.Turtle.Cursor
