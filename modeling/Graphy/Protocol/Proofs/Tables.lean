import Graphy.Core.Proofs.Encode
import Graphy.Protocol.Faithful
import Graphy.Turtle.Proofs.Reading

/-!
# Cells of a table

The terms of the cells, the characters that they and the variables may have, and texts put
together from pieces.
-/

namespace Graphy.Protocol

open Graphy.Concise Graphy.Turtle

/-! ## Lists -/

section Lists

variable {α β : Type} {f : α → Option β}

theorem mapM_some {g : α → β} {l : List α} (h : ∀ a ∈ l, f a = some (g a)) :
    l.mapM f = some (l.map g) := by
  induction l with
  | nil => rfl
  | cons a l ih =>
      rw [List.mapM_cons, h a (List.mem_cons_self ..), ih fun a mem => h a (List.mem_cons_of_mem _ mem)]
      rfl

theorem forall_mapM {l : List α} {l' : List β} (h : l.mapM f = some l') {a : α} (mem : a ∈ l) :
    ∃ b ∈ l', f a = some b := by
  induction l generalizing l' with
  | nil => cases mem
  | cons a' l ih =>
      simp only [List.mapM_cons, Option.bind_eq_bind, Option.bind_eq_some_iff] at h
      obtain ⟨b, here, bs, rest, same⟩ := h
      cases same
      rcases List.mem_cons.mp mem with rfl | mem
      · exact ⟨b, List.mem_cons_self .., here⟩
      · obtain ⟨b', inRest, read⟩ := ih rest mem
        exact ⟨b', List.mem_cons_of_mem _ inRest, read⟩

theorem exists_mapM {l : List α} {l' : List β} (h : l.mapM f = some l') {b : β} (mem : b ∈ l') :
    ∃ a ∈ l, f a = some b := by
  induction l generalizing l' with
  | nil =>
      cases h
      cases mem
  | cons a l ih =>
      simp only [List.mapM_cons, Option.bind_eq_bind, Option.bind_eq_some_iff] at h
      obtain ⟨b', here, bs, rest, same⟩ := h
      cases same
      rcases List.mem_cons.mp mem with rfl | mem
      · exact ⟨a, List.mem_cons_self .., here⟩
      · obtain ⟨a', inRest, read⟩ := ih rest mem
        exact ⟨a', List.mem_cons_of_mem _ inRest, read⟩

theorem length_mapM {l : List α} {l' : List β} (h : l.mapM f = some l') :
    l'.length = l.length := by
  induction l generalizing l' with
  | nil =>
      cases h
      rfl
  | cons a l ih =>
      simp only [List.mapM_cons, Option.bind_eq_bind, Option.bind_eq_some_iff] at h
      obtain ⟨b, here, bs, rest, same⟩ := h
      cases same
      rw [List.length_cons, List.length_cons, ih rest]

end Lists

/-! ## Pieces of text -/

theorem splitAll_join {c : Char} {pieces : List Text} (some_ : pieces ≠ [])
    (without : ∀ piece ∈ pieces, c ∉ piece) : splitAll c (join c pieces) = pieces := by
  induction pieces with
  | nil => exact absurd rfl some_
  | cons piece pieces ih =>
      have here := without piece (List.mem_cons_self ..)
      cases pieces with
      | nil => exact splitAll_of_not_mem here
      | cons next pieces =>
          rw [join, splitAll_append here, ih (by simp) fun p mem => without p (List.mem_cons_of_mem _ mem)]
          exact nofun

/-- The separators, and what stands in the pieces. -/
theorem count_join {c : Char} {pieces : List Text} (some_ : pieces ≠ []) :
    (join c pieces).count c + 1 = pieces.length + (pieces.map (List.count c)).sum := by
  induction pieces with
  | nil => exact absurd rfl some_
  | cons piece pieces ih =>
      cases pieces with
      | nil => simp [join, Nat.add_comm]
      | cons next pieces =>
          have rest := ih (by simp)
          rw [join, List.count_append, List.count_cons_self, List.length_cons, List.map_cons,
            List.sum_cons]
          omega
          exact nofun

theorem mem_join {c d : Char} {pieces : List Text} (other : d ≠ c) (h : d ∈ join c pieces) :
    ∃ piece ∈ pieces, d ∈ piece := by
  induction pieces with
  | nil => cases h
  | cons piece pieces ih =>
      cases pieces with
      | nil => exact ⟨piece, List.mem_cons_self .., h⟩
      | cons next pieces =>
          rw [join, List.mem_append, List.mem_cons] at h
          rcases h with h | same | h
          · exact ⟨piece, List.mem_cons_self .., h⟩
          · exact absurd same other
          · obtain ⟨p, mem, inPiece⟩ := ih h
            exact ⟨p, List.mem_cons_of_mem _ mem, inPiece⟩
          · exact nofun

/-- Lines that all end. -/
theorem splitAll_lines {c : Char} {lines : List Text} (without : ∀ line ∈ lines, c ∉ line) :
    splitAll c (lines.flatMap fun line => line ++ [c]) = lines ++ [[]] := by
  induction lines with
  | nil => rfl
  | cons line lines ih =>
      rw [List.flatMap_cons, List.append_assoc, List.singleton_append,
        splitAll_append (without line (List.mem_cons_self ..)),
        ih fun line mem => without line (List.mem_cons_of_mem _ mem), List.cons_append]

/-! ## Characters -/

/-- Characters of names are no punctuation below the dash, and allowed in XML. -/
theorem isPnChars_spec {c : Char} (h : isPnChars c = true) :
    0x2D ≤ c.toNat ∧ Xml.isChar c = true := by
  have ranges : ∀ n, c.toNat = n → 0x2D ≤ n ∧ n ≤ 0xD7FF ∨ 0xE000 ≤ n ∧ n ≤ 0xFFFD ∨ 0x10000 ≤ n := by
    intro n same
    rw [isPnChars, isPnCharsU, isPnCharsBase, Bool.or_eq_true, Bool.or_eq_true, beq_iff_eq] at h
    rcases h with h | rfl | h
    · simp only [inRanges, List.any_cons, List.any_nil, Bool.or_eq_true, decide_eq_true_eq,
        Bool.or_false, same] at h
      omega
    · have underscore : '_'.toNat = 0x5F := rfl
      omega
    · simp only [inRanges, List.any_cons, List.any_nil, Bool.or_eq_true, decide_eq_true_eq,
        Bool.or_false, same] at h
      omega
  have range := ranges _ rfl
  refine ⟨by omega, ?_⟩
  simp only [Xml.isChar, Bool.or_eq_true, decide_eq_true_eq]
  omega

theorem isPnChars_of_isPnCharsU {c : Char} (h : isPnCharsU c = true) : isPnChars c = true := by
  rw [isPnChars, h, Bool.or_true]

theorem isPnChars_of_isVarnameChar {c : Char} (h : isVarnameChar c = true) : isPnChars c = true := by
  rw [isVarnameChar, Bool.or_eq_true] at h
  rcases h with h | h
  · rw [isPnChars, inRanges, List.any_cons, ← inRanges, h, Bool.or_true, Bool.true_or]
  · exact isPnChars_of_isPnCharsU h

theorem isPnChars_of_isAsciiDigit {c : Char} (h : isAsciiDigit c = true) : isPnChars c = true := by
  refine isPnChars_of_isVarnameChar ?_
  rw [isAsciiDigit_iff] at h
  simp only [isVarnameChar, inRanges, List.any_cons, Bool.or_eq_true, decide_eq_true_eq]
  exact .inl (.inl h)

theorem varName_chars {v : String} (named : isVarName v = true) :
    ∀ c ∈ v.toList, 0x2D ≤ c.toNat ∧ Xml.isChar c = true := by
  unfold isVarName at named
  cases chars : v.toList with
  | nil => simp
  | cons first cs =>
      rw [chars] at named
      obtain ⟨opens, rest⟩ := Bool.and_eq_true_iff.mp named
      intro c mem
      rcases List.mem_cons.mp mem with rfl | mem
      · rcases Bool.or_eq_true_iff.mp opens with opens | opens
        · exact isPnChars_spec (isPnChars_of_isPnCharsU opens)
        · exact isPnChars_spec (isPnChars_of_isAsciiDigit opens)
      · exact isPnChars_spec (isPnChars_of_isVarnameChar (List.all_eq_true.mp rest c mem))

theorem label_chars {label : String} (valid : validateBlankLabel label = .ok ()) :
    ∀ c ∈ label.toList, 0x2D ≤ c.toNat ∧ Xml.isChar c = true := by
  unfold validateBlankLabel at valid
  split at valid
  · cases valid
  · rename_i first cs chars
    split at valid
    · cases valid
    · rename_i opens
      split at valid
      · cases valid
      · rename_i rest
        rw [Bool.not_eq_true, Bool.not_eq_false', Bool.or_eq_true] at opens
        rw [chars]
        intro c mem
        rcases List.mem_cons.mp mem with rfl | mem
        · rcases opens with opens | opens
          · exact isPnChars_spec (isPnChars_of_isPnCharsU opens)
          · exact isPnChars_spec (isPnChars_of_isAsciiDigit opens)
        · have ok : isPnChars c = true ∨ c = '.' := by
            by_contra bad
            rw [not_or] at bad
            refine rest (List.any_eq_true.mpr ⟨c, mem, ?_⟩)
            simp [bad.1, bad.2]
          rcases ok with ok | rfl
          · exact isPnChars_spec ok
          · decide

theorem iri_chars {i : String} (valid : Iri.validateIri i = .ok ()) :
    ∀ c ∈ i.toList, 0x20 < c.toNat := by
  intro c mem
  have clean := clean_of_validateIri valid c mem
  rw [← Bool.not_eq_true, isForbidden_iff, not_or] at clean
  omega

theorem langTag_chars {tag : String} (valid : validateLangTagNormalized tag = .ok ()) :
    ∀ c ∈ tag.toList, 0x20 < c.toNat := by
  intro c mem
  rcases tag_chars valid c mem with alnum | rfl
  · rw [isAsciiAlphanumeric_iff] at alnum
    omega
  · decide

/-- What a fixed text is checked for. -/
theorem forall_of_all {p : Char → Prop} [DecidablePred p] {s : Text}
    (h : (s.all fun c => decide (p c)) = true) : ∀ c ∈ s, p c :=
  fun c mem => of_decide_eq_true (List.all_eq_true.mp h c mem)

/-- Which characters are meant by their numbers. -/
theorem ne_of_lt_toNat {c d : Char} (h : d.toNat < c.toNat) : c ≠ d := by
  rintro rfl
  exact Nat.lt_irrefl _ h

/-! ## Cells -/

/-- The term of a bound cell. -/
structure Bound (bytes : Bytes) (t : TermRef) (v : TermView) : Prop where
  decoded : decode bytes = .ok t
  viewed : view t = some v
  termed : termOf bytes = some v
  valid : v.Valid
  depth : v.depth < maxTripleTermDepth + 1

theorem Table.bound (T : Table) {row : List (Option Bytes)} (mem : row ∈ T.rows) {bytes : Bytes}
    (cell : some bytes ∈ row) : ∃ t v, Bound bytes t v := by
  obtain ⟨t, decoded⟩ := T.accepted row mem bytes cell
  obtain ⟨v, termed, viewed, valid, depth⟩ := termOf_of_decode decoded
  exact ⟨t, v, decoded, viewed, termed, valid, Nat.lt_succ_of_le depth⟩

theorem row_ne_nil {T : Table} {row : List (Option Bytes)} (mem : row ∈ T.rows) : row ≠ [] := by
  intro none_
  have width := T.width row mem
  rw [none_, List.length_nil] at width
  exact T.some_ (List.length_eq_zero_iff.mp width.symm)

/-- The terms of a row stand in the table. -/
theorem Table.mem_solutions {T : Table} {row : List (Option Bytes)} (mem : row ∈ T.rows) {bytes : Bytes}
    (cell : some bytes ∈ row) {v : TermView} (termed : termOf bytes = some v) :
    ∃ terms ∈ T.solutions.rows, some v ∈ terms :=
  ⟨row.map fun cell => cell.bind termOf, List.mem_map_of_mem mem,
    List.mem_map.mpr ⟨some bytes, cell, termed⟩⟩

theorem Table.exists_cell {T : Table} {terms : List (Option TermView)}
    (mem : terms ∈ T.solutions.rows) {v : TermView} (cell : some v ∈ terms) :
    ∃ row ∈ T.rows, ∃ bytes, some bytes ∈ row ∧ termOf bytes = some v := by
  obtain ⟨row, inRows, rfl⟩ := List.mem_map.mp mem
  obtain ⟨cell, inRow, bound⟩ := List.mem_map.mp cell
  cases cell with
  | none => cases bound
  | some bytes => exact ⟨row, inRows, bytes, inRow, bound⟩

/-! ## Bindings -/

section Bindings

variable {α : Type}

/-- The bound cells of a row by their variables. -/
def bindings (f : Bytes → α) (vars : List String) (row : List (Option Bytes)) : List (String × α) :=
  (vars.zip row).filterMap fun cell => cell.2.map fun bytes => (cell.1, f bytes)

theorem mem_bindings {f : Bytes → α} {vars : List String} {row : List (Option Bytes)}
    {b : String × α} : b ∈ bindings f vars row ↔
      ∃ bytes, (b.1, some bytes) ∈ vars.zip row ∧ b.2 = f bytes := by
  simp only [bindings, List.mem_filterMap, Option.map_eq_some_iff]
  constructor
  · rintro ⟨cell, mem, bytes, bound, rfl⟩
    refine ⟨bytes, ?_, rfl⟩
    rw [← bound]
    exact mem
  · rintro ⟨bytes, mem, same⟩
    refine ⟨_, mem, bytes, rfl, ?_⟩
    rw [← same]

theorem lookup_eq_some {l : List (String × α)} {key : String} {a : α} (mem : (key, a) ∈ l)
    (same : ∀ b, (key, b) ∈ l → b = a) : l.lookup key = some a := by
  induction l with
  | nil => cases mem
  | cons entry l ih =>
      by_cases here : key = entry.1
      · have first := same entry.2 (by rw [here]; exact List.mem_cons_self ..)
        rw [List.lookup_cons, here, beq_self_eq_true]
        simp only [first]
      · rw [List.lookup_cons, beq_eq_false_iff_ne.mpr here]
        refine ih ?_ fun b mem => same b (List.mem_cons_of_mem _ mem)
        rcases List.mem_cons.mp mem with first | mem
        · exact absurd (by rw [← first]) here
        · exact mem

theorem lookup_eq_none {l : List (String × α)} {key : String} (none_ : ∀ b, (key, b) ∉ l) :
    l.lookup key = none := by
  refine List.lookup_eq_none_iff.mpr fun entry mem => bne_iff_ne.mpr ?_
  rintro rfl
  exact none_ entry.2 mem

/-- In any order, the bindings of a row hold its cells. -/
theorem Table.lookup_bindings (T : Table) {row : List (Option Bytes)} (mem : row ∈ T.rows)
    (f : Bytes → α) {l : List (String × α)} (same : ∀ b, b ∈ l ↔ b ∈ bindings f T.vars row) :
    T.vars.map (fun v => l.lookup v) = row.map fun cell => cell.map f := by
  have pairs : ∀ {vars : List String} {cells : List (Option Bytes)}, cells.length = vars.length →
      (∀ pair ∈ vars.zip cells, l.lookup pair.1 = pair.2.map f) →
      vars.map (fun v => l.lookup v) = cells.map fun cell => cell.map f := by
    intro vars
    induction vars with
    | nil =>
        intro cells width _
        rw [List.length_eq_zero_iff.mp width]
        rfl
    | cons v vars ih =>
        intro cells width each
        cases cells with
        | nil => cases width
        | cons cell cells =>
            have here := each (v, cell) (List.mem_cons_self ..)
            rw [List.map_cons, List.map_cons, here,
              ih (Nat.succ.inj width) fun pair mem => each pair (List.mem_cons_of_mem _ mem)]
  refine pairs (T.width row mem) fun pair inZip => ?_
  have projected := T.projected row mem pair inZip
  cases bound : pair.2 with
  | none =>
      refine lookup_eq_none fun b inList => ?_
      obtain ⟨bytes, other, -⟩ := mem_bindings.mp ((same _).mp inList)
      have clash := projected _ other rfl
      rw [bound] at clash
      cases clash
  | some bytes =>
      have entry : (pair.1, some bytes) ∈ T.vars.zip row := by
        rw [← bound]
        exact inZip
      refine lookup_eq_some ((same _).mpr (mem_bindings.mpr ⟨bytes, entry, rfl⟩)) fun b inList => ?_
      obtain ⟨bytes', other, value⟩ := mem_bindings.mp ((same _).mp inList)
      have equal := projected _ other rfl
      rw [bound] at equal
      cases equal
      exact value

end Bindings

end Graphy.Protocol
