/-!
# Comma-separated values

The records of RFC 4180 whose lines all end, as a grammar and as a reader.  A field stands
as it is, or in quotes with its quotes doubled.
-/

namespace Graphy.Csv

abbrev Text := List Char

/-! ## Grammar -/

/-- Characters that make a field stand in quotes. -/
def isSpecial (c : Char) : Bool := c == ',' || c == '"' || c == '\n' || c == '\r'

/-- Quotes are doubled. -/
def doubled (s : Text) : Text := s.flatMap fun c => if c = '"' then ['"', '"'] else [c]

/-- How a field is spelled. -/
inductive Field : Text → Text → Prop where
  | plain {s : Text} (h : ∀ c ∈ s, isSpecial c = false) : Field s s
  | quoted (s : Text) : Field ('"' :: (doubled s ++ ['"'])) s

inductive Fields : Text → List Text → Prop where
  | one {t s : Text} (first : Field t s) : Fields t [s]
  | more {t s ts : Text} {ss : List Text} (first : Field t s) (rest : Fields ts ss) :
      Fields (t ++ ',' :: ts) (s :: ss)

/-- Every record ends its line. -/
inductive Records : Text → List (List Text) → Prop where
  | nil : Records [] []
  | cons {t ts : Text} {ss : List Text} {rs : List (List Text)} (first : Fields t ss)
      (rest : Records ts rs) : Records (t ++ '\r' :: '\n' :: ts) (ss :: rs)

/-! ## Reader -/

inductive Mode where
  /-- Nothing of the field has been read. -/
  | start
  | plain
  | quoted
  /-- A quote in a quoted field: it ends the field or doubles. -/
  | quote
deriving DecidableEq, Repr

/-- The records from here on; `field` and `record` are what has been read of the current
ones. -/
@[grind =]
def readFrom (mode : Mode) (field : Text) (record : List Text) : Text → Option (List (List Text))
  | [] =>
      match mode with
      | .quoted => none
      | .start => if record = [] then some [] else some [record ++ [field]]
      | _ => some [record ++ [field]]
  | c :: rest =>
      if mode = .quoted then
        if c = '"' then readFrom .quote field record rest
        else readFrom .quoted (field ++ [c]) record rest
      else if c = ',' then readFrom .start [] (record ++ [field]) rest
      else if c = '\r' then
        match rest with
        | '\n' :: rest => (readFrom .start [] [] rest).map ((record ++ [field]) :: ·)
        | _ => none
      else if c = '"' then
        match mode with
        | .start => readFrom .quoted field record rest
        | .quote => readFrom .quoted (field ++ ['"']) record rest
        | _ => none
      else if c = '\n' ∨ mode = .quote then none
      else readFrom .plain (field ++ [c]) record rest

def read (text : Text) : Option (List (List Text)) := readFrom .start [] [] text

/-! ## The reader accepts the grammar -/

/-- What ends a field: a comma or the end of the line. -/
inductive Stops : Text → Prop where
  | comma (rest : Text) : Stops (',' :: rest)
  | line (rest : Text) : Stops ('\r' :: '\n' :: rest)

/-- Where a field stops, it does not matter how it was spelled. -/
theorem readFrom_stops {rest : Text} (h : Stops rest) {mode : Mode} (unquoted : mode ≠ .quoted)
    (field : Text) (record : List Text) :
    readFrom mode field record rest = readFrom .plain field record rest := by
  cases h with
  | comma rest =>
      rw [readFrom.eq_def, readFrom.eq_def .plain]
      simp [unquoted]
  | line rest =>
      rw [readFrom.eq_def, readFrom.eq_def .plain]
      simp [unquoted]

theorem readFrom_plain {s : Text} (plain : ∀ c ∈ s, isSpecial c = false) {mode : Mode}
    (open_ : mode = .start ∨ mode = .plain) (field : Text) (record : List Text) {rest : Text}
    (stops : Stops rest) :
    readFrom mode field record (s ++ rest) = readFrom .plain (field ++ s) record rest := by
  induction s generalizing mode field with
  | nil =>
      rw [List.nil_append, List.append_nil]
      exact readFrom_stops stops (by rcases open_ with rfl | rfl <;> decide) field record
  | cons c s ih =>
      have here := plain c (List.mem_cons_self ..)
      simp only [isSpecial, Bool.or_eq_false_iff, beq_eq_false_iff_ne] at here
      have unquoted : mode ≠ .quoted ∧ mode ≠ .quote := by
        rcases open_ with rfl | rfl <;> decide
      have next := ih (fun c mem => plain c (List.mem_cons_of_mem _ mem)) (.inr rfl) (field ++ [c])
      rw [List.cons_append, readFrom.eq_def]
      simp only [unquoted.1, unquoted.2, here.1.1.1, here.1.1.2, here.1.2, here.2, or_self,
        if_false, next]
      simp

theorem readFrom_doubled (s field : Text) (record : List Text) (rest : Text) :
    readFrom .quoted field record (doubled s ++ '"' :: rest) =
      readFrom .quote (field ++ s) record rest := by
  induction s generalizing field with
  | nil =>
      rw [readFrom.eq_def]
      simp [doubled]
  | cons c s ih =>
      have spelled : doubled (c :: s) = (if c = '"' then ['"', '"'] else [c]) ++ doubled s := by
        simp [doubled]
      rw [spelled]
      by_cases quote : c = '"'
      · subst quote
        simp only [if_true, List.cons_append, List.nil_append]
        rw [readFrom.eq_def]
        simp only [if_true]
        rw [readFrom.eq_def]
        simp [ih]
      · simp only [if_neg quote, List.cons_append, List.nil_append]
        rw [readFrom.eq_def]
        simp [quote, ih]

/-- A field is read as what it spells. -/
theorem readFrom_field {t s : Text} (h : Field t s) (record : List Text) {rest : Text}
    (stops : Stops rest) :
    readFrom .start [] record (t ++ rest) = readFrom .plain s record rest := by
  cases h with
  | plain plain => exact readFrom_plain plain (.inl rfl) [] record stops
  | quoted s =>
      rw [List.cons_append, List.append_assoc, readFrom.eq_def]
      simp only [reduceCtorEq, if_false, if_true, Char.reduceEq]
      rw [List.singleton_append, readFrom_doubled, List.nil_append]
      exact readFrom_stops stops (by decide) s record

theorem readFrom_fields {t : Text} {ss : List Text} (h : Fields t ss) (record : List Text)
    (rest : Text) : readFrom .start [] record (t ++ '\r' :: '\n' :: rest) =
      (readFrom .start [] [] rest).map ((record ++ ss) :: ·) := by
  induction h generalizing record with
  | one first =>
      rw [readFrom_field first record (.line rest), readFrom.eq_def]
      simp
  | more first fields ih =>
      rw [List.append_assoc, List.cons_append, readFrom_field first record (.comma _)]
      rw [readFrom.eq_def]
      simp [ih]

/-- The reader gives the records that the text spells. -/
theorem read_of_records {t : Text} {rs : List (List Text)} (h : Records t rs) :
    read t = some rs := by
  induction h with
  | nil => rfl
  | cons first records ih =>
      unfold read at ih ⊢
      rw [readFrom_fields first, ih]
      simp

end Graphy.Csv
