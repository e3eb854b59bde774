import Graphy.Protocol.Proofs.Tables

/-!
# Reading JSON

Every table reads back from its tree.  A component of a triple term is encoded and decoded
again on the way, which gives the same term.
-/

namespace Graphy.Protocol

open Graphy.Concise Graphy.Turtle

/-! ## Objects -/

namespace Json

theorem lookup_pair (key : String) (value : Json) (fields : List (String × Json)) (k : String) :
    ((key, value) :: fields).lookup k = if k = key then some value else fields.lookup k := by
  by_cases here : k = key
  · rw [if_pos here, here, List.lookup_cons_self]
  · rw [if_neg here, List.lookup_cons, beq_eq_false_iff_ne.mpr here]

theorem lookup_insert (key : String) (value : Json) (fields : List (String × Json)) (k : String) :
    (insert key value fields).lookup k = if k = key then some value else fields.lookup k := by
  induction fields with
  | nil => exact lookup_pair key value [] k
  | cons f fields ih =>
      rw [insert]
      split
      · exact lookup_pair key value _ k
      · split
        · rename_i same
          rw [lookup_pair, lookup_pair, same]
          split <;> rfl
        · rename_i other
          rw [lookup_pair, ih, lookup_pair]
          by_cases here : k = f.1
          · rw [if_pos here, if_pos here, if_neg fun same => other (same.symm.trans here)]
          · rw [if_neg here, if_neg here]

theorem lookup_foldl (fields o : List (String × Json)) (k : String) :
    (fields.foldl (fun o f => insert f.1 f.2 o) o).lookup k =
      ((fields.reverse.lookup k).or (o.lookup k)) := by
  induction fields generalizing o with
  | nil => rfl
  | cons f fields ih =>
      rw [List.foldl_cons, ih, List.reverse_cons, List.lookup_append, lookup_insert,
        Option.or_assoc, show List.lookup k [f] = if k = f.1 then some f.2 else none from
          lookup_pair f.1 f.2 [] k]
      split <;> rfl

/-- The last field of a key counts. -/
theorem field_ofFields (fields : List (String × Json)) (k : String) :
    (Json.object (ofFields fields)).field k = fields.reverse.lookup k := by
  rw [field, ofFields, lookup_foldl, List.lookup_nil, Option.or_none]

end Json

/-! ## Terms -/

theorem viewAt_le {n m : Nat} (le : n ≤ m) {t : TermRef} {v : TermView} (h : viewAt n t = some v) :
    viewAt m t = some v := by
  induction n generalizing m t v with
  | zero => cases h
  | succ n ih =>
      obtain ⟨m, rfl⟩ := Nat.exists_eq_succ_of_ne_zero (Nat.ne_zero_of_lt le)
      have le' : n ≤ m := Nat.le_of_succ_le_succ le
      cases t with
      | tripleTerm payload =>
          simp only [viewAt, Option.bind_eq_bind, Option.bind_eq_some_iff] at h ⊢
          obtain ⟨s, ⟨ts, isS, viewS⟩, p, ⟨tp, isP, viewP⟩, o, ⟨tObj, isO, viewO⟩, same⟩ := h
          exact ⟨s, ⟨ts, isS, ih le' viewS⟩, p, ⟨tp, isP, ih le' viewP⟩, o, ⟨tObj, isO, ih le' viewO⟩,
            same⟩
      | _ => exact h

theorem decode_of_component {payload : Bytes} {want : Nat} {t : TermRef}
    (h : component payload want = some t) : ∃ bytes, decode bytes = .ok t := by
  induction want generalizing payload with
  | zero =>
      obtain ⟨part, -, decoded⟩ := Option.bind_eq_some_iff.mp h
      cases read : decode part.1 with
      | error e =>
          rw [read] at decoded
          cases decoded
      | ok t' =>
          rw [read] at decoded
          cases decoded
          exact ⟨part.1, read⟩
  | succ want ih =>
      obtain ⟨part, -, rest⟩ := Option.bind_eq_some_iff.mp h
      exact ih rest

/-- By induction on the term. -/
theorem writeConcise_eq {v : TermView} (valid : v.Valid) : writeConcise v = reencode v := by
  induction v with
  | datatyped lex dt =>
      have ordinary : dt ≠ Graphy.Vocab.xsdString := fun same => valid.2 (.inl same)
      rw [writeConcise, if_neg ordinary, reencode]
  | tripleTerm s p o ihS ihP ihO =>
      obtain ⟨-, validS, validP, validO⟩ := valid
      rw [writeConcise, ihS validS, ihP validP, ihO validO, reencode]
  | _ => rfl

/-- A component of a triple term, encoded and decoded again. -/
theorem decode_component {payload : Bytes} {want levels : Nat} (le : levels ≤ maxTripleTermDepth)
    {v : TermView} (valid : v.Valid) (h : (component payload want).bind (viewAt levels) = some v) :
    (component payload want).bind view = some v ∧
      ∃ t, decode (writeConcise v) = .ok t ∧ view t = some v := by
  obtain ⟨t, isPart, viewed⟩ := Option.bind_eq_some_iff.mp h
  have whole : view t = some v := viewAt_le (Nat.le_succ_of_le le) viewed
  obtain ⟨bytes, decoded⟩ := decode_of_component isPart
  rw [writeConcise_eq valid, isPart]
  exact ⟨whole, decode_reencode decoded whole⟩

/-- By induction on the levels: the object of a term's bytes is read as the term. -/
theorem readTermJson_termJsonAt {levels : Nat} {bytes : Bytes} {t : TermRef} {v : TermView}
    (valid : v.Valid) (depth : v.depth < levels) (decoded : decode bytes = .ok t)
    (viewed : view t = some v) :
    ∃ j, termJsonAt levels bytes = some j ∧ readTermJson levels j = some v := by
  induction levels generalizing bytes t v with
  | zero => exact absurd depth (Nat.not_lt_zero _)
  | succ levels ih =>
      rw [termJsonAt, decoded]
      cases t with
      | iri i =>
          cases viewed
          refine ⟨_, rfl, ?_⟩
          simp [readTermJson, Json.textAt, Json.field_ofFields, Json.lookup_pair, Json.text]
      | blankNode label =>
          cases viewed
          refine ⟨_, rfl, ?_⟩
          simp [readTermJson, Json.textAt, Json.field_ofFields, Json.lookup_pair, Json.text]
      | simple lex =>
          cases viewed
          refine ⟨_, rfl, ?_⟩
          simp [readTermJson, literalJson, Json.textAt, Json.field_ofFields, Json.lookup_pair,
            Json.text]
      | lang lex tag dir =>
          cases viewed
          cases dir with
          | none =>
              refine ⟨_, rfl, ?_⟩
              simp [readTermJson, literalJson, readDir, Json.textAt, Json.field_ofFields,
                Json.lookup_pair, Json.text]
          | some dir =>
              refine ⟨_, rfl, ?_⟩
              have read : dirOf (dirName dir).toList = some dir := by cases dir <;> decide
              simp [readTermJson, literalJson, readDir, Json.textAt, Json.field_ofFields,
                Json.lookup_pair, Json.text, read]
      | datatyped lex dt =>
          cases viewed
          have ordinary : dt ≠ Graphy.Vocab.xsdString := fun same => valid.2 (.inl same)
          refine ⟨_, rfl, ?_⟩
          simp [readTermJson, literalJson, typed, Json.textAt, Json.field_ofFields,
            Json.lookup_pair, Json.text, ordinary]
      | tripleTerm payload =>
          simp only [view, viewAt, Option.bind_eq_bind, Option.bind_eq_some_iff,
            Option.pure_def, Option.some.injEq] at viewed
          obtain ⟨s, viewS, p, viewP, o, viewO, rfl⟩ := viewed
          obtain ⟨-, validS, validP, validO⟩ := valid
          rw [TermView.depth] at depth
          obtain ⟨partS, ts, decodedS, wholeS⟩ := decode_component (Nat.le_refl _) validS
            (Option.bind_eq_some_iff.mpr viewS)
          obtain ⟨partP, tp, decodedP, wholeP⟩ := decode_component (Nat.le_refl _) validP
            (Option.bind_eq_some_iff.mpr viewP)
          obtain ⟨partO, tObj, decodedO, wholeO⟩ := decode_component (Nat.le_refl _) validO
            (Option.bind_eq_some_iff.mpr viewO)
          obtain ⟨js, writtenS, readS⟩ := ih validS (by omega) decodedS wholeS
          obtain ⟨jp, writtenP, readP⟩ := ih validP (by omega) decodedP wholeP
          obtain ⟨jo, writtenO, readO⟩ := ih validO (by omega) decodedO wholeO
          simp only [partS, partP, partO, writtenS, writtenP, writtenO, Option.bind_eq_bind,
            Option.bind_some, Option.pure_def]
          refine ⟨_, rfl, ?_⟩
          simp [readTermJson, Json.textAt, Json.field_ofFields, Json.lookup_pair, Json.text, readS,
            readP, readO]

/-! ## Tables -/

def jsonOf (bytes : Bytes) : Json := (termJson bytes).getD (.bool false)

theorem readBound_jsonOf {T : Table} {row : List (Option Bytes)} (mem : row ∈ T.rows)
    {cell : Option Bytes} (inRow : cell ∈ row) :
    readBound (cell.map jsonOf) = some (cell.bind termOf) := by
  cases cell with
  | none => rfl
  | some bytes =>
      obtain ⟨t, v, bound⟩ := T.bound mem inRow
      obtain ⟨j, written, read⟩ :=
        readTermJson_termJsonAt bound.valid bound.depth bound.decoded bound.viewed
      have here : jsonOf bytes = j := by rw [jsonOf, termJson, written, Option.getD_some]
      rw [Option.map_some, here, readBound, read, Option.bind_some, bound.termed]
      rfl

theorem filterMapM_some {α β : Type} {f : α → Option (Option β)} {g : α → Option β} {l : List α}
    (h : ∀ a ∈ l, f a = some (g a)) : l.filterMapM f = some (l.filterMap g) := by
  induction l with
  | nil => rfl
  | cons a l ih =>
      rw [List.filterMapM_cons, h a (List.mem_cons_self ..),
        ih fun a mem => h a (List.mem_cons_of_mem _ mem), List.filterMap_cons]
      cases g a <;> rfl

theorem rowJson_eq {T : Table} {row : List (Option Bytes)} (mem : row ∈ T.rows) :
    rowJson T.vars row = some (.object (Json.ofFields (bindings jsonOf T.vars row))) := by
  have each : ∀ cell ∈ T.vars.zip row, bindingJson cell =
      some (cell.2.map fun bytes => (cell.1, jsonOf bytes)) := by
    intro cell inZip
    unfold bindingJson
    cases held : cell.2 with
    | none => rfl
    | some bytes =>
        have inRow : some bytes ∈ row := by
          rw [← held]
          exact (List.of_mem_zip inZip).2
        obtain ⟨t, v, bound⟩ := T.bound mem inRow
        obtain ⟨j, written, -⟩ :=
          readTermJson_termJsonAt bound.valid bound.depth bound.decoded bound.viewed
        have whole : termJson bytes = some j := written
        simp only [jsonOf, whole, Option.map_some, Option.getD_some]
  rw [rowJson, filterMapM_some each]
  rfl

theorem readBindings_rowJson {T : Table} {row : List (Option Bytes)} (mem : row ∈ T.rows) :
    (rowJson T.vars row).bind (readBindings T.vars) =
      some (row.map fun cell => cell.bind termOf) := by
  have cells : ∀ cell ∈ row, (readBound ∘ fun cell => cell.map jsonOf) cell =
      some (cell.bind termOf) := fun cell inRow => readBound_jsonOf mem inRow
  have held := T.lookup_bindings mem jsonOf (l := (bindings jsonOf T.vars row).reverse)
    fun b => List.mem_reverse
  rw [rowJson_eq mem, Option.bind_some, readBindings]
  simp only [Json.field_ofFields]
  rw [← mapM_some cells, ← List.mapM_map, ← held, List.mapM_map]
  rfl

theorem readJson_toJson (T : Table) : (toJson T.results).bind readJson = some T.solutions := by
  have written : ∀ row ∈ T.rows, rowJson T.vars row =
      some (.object (Json.ofFields (bindings jsonOf T.vars row))) := fun row mem => rowJson_eq mem
  have rows : (T.rows.map fun row => Json.object (Json.ofFields (bindings jsonOf T.vars row))).mapM
      (readBindings T.vars) = some T.solutions.rows := by
    have each : ∀ row ∈ T.rows, (readBindings T.vars ∘ fun row =>
        Json.object (Json.ofFields (bindings jsonOf T.vars row))) row =
          some (row.map fun cell => cell.bind termOf) := by
      intro row mem
      rw [← readBindings_rowJson mem, rowJson_eq mem]
      rfl
    rw [List.mapM_map, mapM_some each]
    rfl
  have vars : (T.vars.map Json.string).mapM Json.text = some T.vars := by
    have each : ∀ v ∈ T.vars, (Json.text ∘ Json.string) v = some v := fun v _ => rfl
    rw [List.mapM_map, mapM_some each, List.map_id']
  simp only [toJson, Table.results, mapM_some written, Option.bind_eq_bind, Option.bind_some,
    Option.pure_def, readJson, Json.field_ofFields, List.reverse_cons, List.reverse_nil,
    List.nil_append, List.cons_append, Json.lookup_pair, String.reduceEq, if_true, if_false,
    Json.items, vars, rows]
  rfl

end Graphy.Protocol
