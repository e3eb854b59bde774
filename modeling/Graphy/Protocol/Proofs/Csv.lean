import Graphy.Protocol.Proofs.Tables

/-!
# Reading CSV

Every table reads back: a field with a special character stands in quotes.
-/

namespace Graphy.Protocol

open Graphy.Concise Graphy.Turtle Graphy.Csv

theorem isSpecial_eq (c : Char) : [',', '"', '\n', '\r'].contains c = isSpecial c := by
  simp [isSpecial, List.contains_eq_mem, Bool.or_assoc, Bool.beq_eq_decide_eq]

theorem field_csvEscape (s : Text) : Field (csvEscape s) s := by
  unfold csvEscape
  simp only [isSpecial_eq]
  split
  · exact .quoted s
  · rename_i none_
    refine .plain fun c mem => ?_
    rw [Bool.not_eq_true, List.any_eq_false] at none_
    exact Bool.not_eq_true _ ▸ none_ c mem

/-- A label needs no quotes. -/
theorem field_label {label : String} (valid : validateBlankLabel label = .ok ()) :
    Field ("_:".toList ++ label.toList) ("_:".toList ++ label.toList) := by
  refine .plain fun c mem => ?_
  have above : 0x2D ≤ c.toNat := by
    rcases List.mem_append.mp mem with mem | mem
    · have fixed : ∀ c ∈ "_:".toList, 0x2D ≤ c.toNat := forall_of_all (by decide)
      exact fixed c mem
    · exact (label_chars valid c mem).1
  have other : ∀ d : Char, d.toNat < 0x2D → c ≠ d := fun d low =>
    ne_of_lt_toNat (Nat.lt_of_lt_of_le low above)
  simp [isSpecial, other ',' (by decide), other '"' (by decide), other '\n' (by decide),
    other '\r' (by decide)]

/-- A cell spells what the field says of its term. -/
theorem field_csvCell {T : Table} {row : List (Option Bytes)} (mem : row ∈ T.rows)
    {cell : Option Bytes} (inRow : cell ∈ row) :
    Field (csvCell cell) (fieldOf (cell.bind termOf)) := by
  cases cell with
  | none => exact .plain nofun
  | some bytes =>
      obtain ⟨t, v, bound⟩ := T.bound mem inRow
      have decoded := bound.decoded
      have viewed := bound.viewed
      have valid := bound.valid
      rw [Option.bind_some, bound.termed]
      unfold csvCell
      simp only [decoded]
      cases t with
      | tripleTerm payload =>
          have shape : ∃ s p o, v = .tripleTerm s p o := by
            simp only [view, viewAt, Option.bind_eq_bind, Option.bind_eq_some_iff,
              Option.pure_def, Option.some.injEq] at viewed
            obtain ⟨s, -, p, -, o, -, rfl⟩ := viewed
            exact ⟨s, p, o, rfl⟩
          obtain ⟨s, p, o, rfl⟩ := shape
          have text : termNt bytes = fieldOf (some (.tripleTerm s p o)) := by
            simp only [termNt, bound.termed, fieldOf]
          rw [text]
          exact field_csvEscape _
      | blankNode label =>
          cases viewed
          exact field_label valid
      | _ =>
          cases viewed
          exact field_csvEscape _

theorem fields_join {α : Type} {spelled read : α → Text} {l : List α} (some_ : l ≠ [])
    (each : ∀ a ∈ l, Field (spelled a) (read a)) :
    Fields (join ',' (l.map spelled)) (l.map read) := by
  induction l with
  | nil => exact absurd rfl some_
  | cons a l ih =>
      have here := each a (List.mem_cons_self ..)
      cases l with
      | nil => exact .one here
      | cons b l => exact .more here (ih (by simp) fun a mem => each a (List.mem_cons_of_mem _ mem))

theorem records_lines {α : Type} {spelled : α → Text} {read : α → List Text} {l : List α}
    (each : ∀ a ∈ l, Fields (spelled a) (read a)) :
    Records (l.flatMap fun a => spelled a ++ ['\r', '\n']) (l.map read) := by
  induction l with
  | nil => exact .nil
  | cons a l ih =>
      have rest := ih fun a mem => each a (List.mem_cons_of_mem _ mem)
      rw [List.flatMap_cons, List.map_cons, List.append_assoc]
      exact .cons (each a (List.mem_cons_self ..)) rest

theorem readCsv_toCsv (T : Table) : (toCsv T.results).bind Csv.read = some T.solutions.records := by
  have head : Fields (join ',' (T.vars.map fun v => csvEscape v.toList))
      (T.vars.map String.toList) := fields_join T.some_ fun v _ => field_csvEscape v.toList
  have rows : Records (T.rows.flatMap fun row => join ',' (row.map csvCell) ++ ['\r', '\n'])
      (T.rows.map fun row => row.map fun cell => fieldOf (cell.bind termOf)) := by
    refine records_lines fun row mem => fields_join ?_ fun cell inRow => field_csvCell mem inRow
    exact row_ne_nil mem
  have whole := read_of_records (Records.cons head rows)
  have shape : T.solutions.records = T.vars.map String.toList ::
      T.rows.map fun row => row.map fun cell => fieldOf (cell.bind termOf) := by
    simp [Solutions.records, Table.solutions, Function.comp_def]
  rw [shape, Table.results, toCsv, Option.bind_some, List.append_assoc]
  exact whole

end Graphy.Protocol
