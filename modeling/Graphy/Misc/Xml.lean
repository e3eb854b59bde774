import Mathlib.Data.List.Infix

/-!
# Reading XML

A reader for documents of XML 1.0 without a document type, comments, sections and processing
instructions: what it accepts is well formed.  Texts that spell a tree are read as the tree.
-/

namespace Graphy.Xml

abbrev Text := List Char

/-! ## Characters -/

/-- The characters that a document may have. -/
def isChar (c : Char) : Bool :=
  c == '\t' || c == '\n' || c == '\r' || decide (0x20 ≤ c.toNat ∧ c.toNat ≤ 0xD7FF) ||
    decide (0xE000 ≤ c.toNat ∧ c.toNat ≤ 0xFFFD) || decide (0x10000 ≤ c.toNat)

def isSpace (c : Char) : Bool := c == ' ' || c == '\t' || c == '\n' || c == '\r'

def isNameStart (c : Char) : Bool :=
  c == ':' || c == '_' ||
    [(0x41, 0x5A), (0x61, 0x7A), (0xC0, 0xD6), (0xD8, 0xF6), (0xF8, 0x2FF), (0x370, 0x37D),
      (0x37F, 0x1FFF), (0x200C, 0x200D), (0x2070, 0x218F), (0x2C00, 0x2FEF), (0x3001, 0xD7FF),
      (0xF900, 0xFDCF), (0xFDF0, 0xFFFD), (0x10000, 0xEFFFF)].any
      fun r => decide (r.1 ≤ c.toNat ∧ c.toNat ≤ r.2)

def isNameChar (c : Char) : Bool :=
  isNameStart c || c == '-' || c == '.' ||
    [(0x30, 0x39), (0xB7, 0xB7), (0x300, 0x36F), (0x203F, 0x2040)].any
      fun r => decide (r.1 ≤ c.toNat ∧ c.toNat ≤ r.2)

def isName : Text → Bool
  | [] => false
  | c :: s => isNameStart c && s.all isNameChar

/-- Line ends become line feeds before anything else is read. -/
@[grind =] def normalizeLines : Text → Text
  | [] => []
  | '\r' :: '\n' :: s => '\n' :: normalizeLines s
  | '\r' :: s => '\n' :: normalizeLines s
  | c :: s => c :: normalizeLines s

/-- Replace the references to the five predefined entities. -/
@[grind =] def expand : Text → Option Text
  | [] => some []
  | '&' :: 'a' :: 'm' :: 'p' :: ';' :: s => (expand s).map ('&' :: ·)
  | '&' :: 'l' :: 't' :: ';' :: s => (expand s).map ('<' :: ·)
  | '&' :: 'g' :: 't' :: ';' :: s => (expand s).map ('>' :: ·)
  | '&' :: 'q' :: 'u' :: 'o' :: 't' :: ';' :: s => (expand s).map ('"' :: ·)
  | '&' :: 'a' :: 'p' :: 'o' :: 's' :: ';' :: s => (expand s).map ('\'' :: ·)
  | c :: s => if c = '&' then none else (expand s).map (c :: ·)

/-! ## Tags -/

/-- A piece of a document: what stands between `<` and `>`, or between two tags. -/
inductive Piece where
  | data (raw : Text)
  | markup (raw : Text)
deriving DecidableEq, Repr

def dataPiece (raw : Text) : List Piece := if raw = [] then [] else [.data raw]

/-- Cut a document into pieces; in quotes a `>` ends no tag. -/
@[grind =]
def pieces (inside : Bool) (quote : Option Char) (raw : Text) : Text → Option (List Piece)
  | [] => if inside then none else some (dataPiece raw)
  | c :: s =>
      if inside then
        match quote with
        | some q => pieces true (if c = q then none else some q) (raw ++ [c]) s
        | none =>
            if c = '>' then (pieces false none [] s).map (.markup raw :: ·)
            else pieces true (if c = '"' ∨ c = '\'' then some c else none) (raw ++ [c]) s
      else if c = '<' then (pieces true none [] s).map (dataPiece raw ++ ·)
      else pieces false none (raw ++ [c]) s

/-- Where the reader is between the name of a tag and its end. -/
inductive Place where
  /-- Behind the name or a value; a space has to come before an attribute. -/
  | behind
  | spaces
  | name (name : Text)
  | equals (name : Text)
  | value (name : Text) (quote : Char) (raw : Text)
deriving DecidableEq, Repr

/-- An attribute value: no `<`, and its spaces become blanks. -/
def readValue (raw : Text) : Option Text :=
  if raw.contains '<' then none
  else (expand raw).map fun s => s.map fun c => if isSpace c then ' ' else c

/-- The attributes from here on. -/
@[grind =] def attributes (place : Place) : Text → Option (List (Text × Text))
  | [] =>
      match place with
      | .behind | .spaces => some []
      | _ => none
  | c :: s =>
      match place with
      | .behind => if isSpace c then attributes .spaces s else none
      | .spaces => if isSpace c then attributes .spaces s else attributes (.name [c]) s
      | .name name =>
          if c = '=' then attributes (.equals name) s else attributes (.name (name ++ [c])) s
      | .equals name =>
          if c = '"' ∨ c = '\'' then attributes (.value name c []) s else none
      | .value name quote raw =>
          if c = quote then do
            let value ← readValue raw
            let more ← attributes .behind s
            if isName name then some ((name, value) :: more) else none
          else attributes (.value name quote (raw ++ [c])) s

/-! ## Trees -/

inductive Node where
  | text (s : Text)
  | element (name : Text) (attributes : List (Text × Text)) (children : List Node)

inductive Token where
  | text (s : Text)
  | opening (name : Text) (attributes : List (Text × Text))
  | closing (name : Text)
  | single (name : Text) (attributes : List (Text × Text))
deriving DecidableEq, Repr

/-- A start tag without its brackets; a name occurs once among the attributes. -/
def readTag (single : Bool) (raw : Text) : Option Token :=
  let name := raw.takeWhile isNameChar
  match attributes .behind (raw.dropWhile isNameChar) with
  | none => none
  | some attrs =>
      if isName name ∧ (attrs.map Prod.fst).Nodup then
        some (if single then .single name attrs else .opening name attrs)
      else none

@[grind =] def readPiece : Piece → Option Token
  | .data raw =>
      if raw.tails.any fun s => [']', ']', '>'].isPrefixOf s then none
      else (expand raw).map .text
  | .markup ('/' :: name) => if isName name then some (.closing name) else none
  | .markup raw => if raw.getLast? = some '/' then readTag true raw.dropLast else readTag false raw

/-- Put the tokens together; the open elements stand on the stack with what came before them. -/
@[grind =] def build (stack : List (Text × List (Text × Text) × List Node)) (before : List Node) :
    List Token → Option (List Node)
  | [] => if stack.isEmpty then some before else none
  | .text s :: ts => build stack (before ++ [.text s]) ts
  | .single name attrs :: ts => build stack (before ++ [.element name attrs []]) ts
  | .opening name attrs :: ts => build ((name, attrs, before) :: stack) [] ts
  | .closing name :: ts =>
      match stack with
      | [] => none
      | (name', attrs, outer) :: stack =>
          if name = name' then build stack (outer ++ [.element name attrs before]) ts else none

def declaration : Text := "<?xml version=\"1.0\"?>".toList

/-- The root element of a document. -/
def read (document : Text) : Option Node :=
  let text := normalizeLines document
  if !text.all isChar || !declaration.isPrefixOf text then none
  else do
    let parts ← pieces false none [] ((text.drop declaration.length).dropWhile isSpace)
    let tokens ← parts.mapM readPiece
    match ← build [] [] tokens with
    | [.element name attrs children] => some (.element name attrs children)
    | _ => none

/-! ## Spelling a tree -/

/-- How attributes are spelled, each behind a blank. -/
inductive Attributes : Text → List (Text × Text) → Prop where
  | nil : Attributes [] []
  | cons {name raw value more : Text} {attrs : List (Text × Text)} (named : isName name = true)
      (quoteless : '"' ∉ raw) (reads : readValue raw = some value) (rest : Attributes more attrs) :
      Attributes (' ' :: (name ++ '=' :: '"' :: (raw ++ '"' :: more))) ((name, value) :: attrs)

/-- How character data are spelled. -/
structure Data (raw s : Text) : Prop where
  some_ : raw ≠ []
  plain : '<' ∉ raw ∧ '>' ∉ raw
  expands : expand raw = some s

/-- A tag's name and its attributes. -/
structure Tag (name a : Text) (attrs : List (Text × Text)) : Prop where
  named : isName name = true
  spelled : Attributes a attrs
  once : (attrs.map Prod.fst).Nodup

/-- How a list of elements is spelled, each with its children or with character data alone. -/
inductive Elements : Text → List Node → Prop where
  | nil : Elements [] []
  | single {name a t : Text} {attrs : List (Text × Text)} {ns : List Node} (tag : Tag name a attrs)
      (rest : Elements t ns) :
      Elements ('<' :: (name ++ a ++ '/' :: '>' :: t)) (.element name attrs [] :: ns)
  | data {name a raw s t : Text} {attrs : List (Text × Text)} {ns : List Node}
      (tag : Tag name a attrs) (data : Data raw s) (rest : Elements t ns) :
      Elements ('<' :: (name ++ a ++ '>' :: (raw ++ '<' :: '/' :: (name ++ '>' :: t))))
        (.element name attrs [.text s] :: ns)
  | children {name a c t : Text} {attrs : List (Text × Text)} {cs ns : List Node}
      (tag : Tag name a attrs) (inner : Elements c cs) (rest : Elements t ns) :
      Elements ('<' :: (name ++ a ++ '>' :: (c ++ '<' :: '/' :: (name ++ '>' :: t))))
        (.element name attrs cs :: ns)

theorem isNameStart_of_isName {c : Char} {s : Text} (h : isName (c :: s) = true) :
    isNameStart c = true := (Bool.and_eq_true_iff.mp h).1

theorem isNameChar_of_isName {name : Text} (h : isName name = true) :
    ∀ c ∈ name, isNameChar c = true := by
  cases name with
  | nil => exact nofun
  | cons d s =>
      obtain ⟨start, rest⟩ := Bool.and_eq_true_iff.mp h
      intro c mem
      rcases List.mem_cons.mp mem with rfl | mem
      · simp [isNameChar, start]
      · exact List.all_eq_true.mp rest c mem

/-- The characters that delimit stand in no name. -/
theorem delimiter_not_name {c : Char} (h : c ∈ [' ', '=', '"', '\'', '/', '<', '>']) :
    isNameChar c = false := by
  simp only [List.mem_cons, List.not_mem_nil, or_false] at h
  rcases h with rfl | rfl | rfl | rfl | rfl | rfl | rfl <;> decide

theorem attributes_name {name : Text} (chars : ∀ c ∈ name, isNameChar c = true) (before rest : Text) :
    attributes (.name before) (name ++ '=' :: rest) = attributes (.equals (before ++ name)) rest := by
  induction name generalizing before with
  | nil => simp [attributes]
  | cons c name ih =>
      have here := chars c (List.mem_cons_self ..)
      have notEquals : c ≠ '=' := by
        rintro rfl
        rw [delimiter_not_name (by simp)] at here
        cases here
      have next := ih (fun c mem => chars c (List.mem_cons_of_mem _ mem)) (before ++ [c])
      rw [List.cons_append, attributes]
      simp only [notEquals, if_false, next]
      simp

theorem attributes_value {raw : Text} (quoteless : '"' ∉ raw) (name before rest : Text) :
    attributes (.value name '"' before) (raw ++ '"' :: rest) =
      attributes (.value name '"' (before ++ raw)) ('"' :: rest) := by
  induction raw generalizing before with
  | nil => simp
  | cons c raw ih =>
      rw [List.mem_cons, not_or] at quoteless
      have next := ih quoteless.2 (before ++ [c])
      rw [List.cons_append, attributes]
      simp only [Ne.symm quoteless.1, if_false, next]
      simp

/-- By induction on the spelling. -/
theorem attributes_spelled {a : Text} {attrs : List (Text × Text)} (h : Attributes a attrs) :
    attributes .behind a = some attrs := by
  induction h with
  | nil => rfl
  | @cons name raw value more attrs named quoteless reads rest ih =>
      have chars := isNameChar_of_isName named
      cases name with
      | nil => cases named
      | cons c name =>
          have notSpace : isSpace c = false := by
            have start := isNameStart_of_isName named
            cases space : isSpace c with
            | false => rfl
            | true =>
                simp only [isSpace, Bool.or_eq_true, beq_iff_eq] at space
                rcases space with ((rfl | rfl) | rfl) | rfl <;> exact absurd start (by decide)
          have scanned := attributes_name
            (fun d mem => chars d (List.mem_cons_of_mem c mem)) [c] ('"' :: (raw ++ '"' :: more))
          rw [attributes]
          simp only [show isSpace ' ' = true by decide, if_true]
          rw [List.cons_append, attributes]
          simp only [notSpace, Bool.false_eq_true, if_false]
          rw [scanned, attributes]
          simp only [true_or, if_true]
          rw [attributes_value quoteless, attributes]
          simp [reads, ih, named]

/-! ## Reading what is spelled -/

/-- Text that leaves the reader inside of the tag and outside of quotes. -/
def Balanced (a : Text) : Prop :=
  ∀ raw rest, pieces true none raw (a ++ rest) = pieces true none (raw ++ a) rest

theorem Balanced.append {a b : Text} (ha : Balanced a) (hb : Balanced b) : Balanced (a ++ b) := by
  intro raw rest
  rw [List.append_assoc, ha, hb, List.append_assoc]

theorem balanced_plain {a : Text} (h : ∀ c ∈ a, c ≠ '>' ∧ c ≠ '"' ∧ c ≠ '\'') : Balanced a := by
  intro raw rest
  induction a generalizing raw with
  | nil => simp
  | cons c a ih =>
      obtain ⟨notEnd, notQuote, notApostrophe⟩ := h c (List.mem_cons_self ..)
      have next := ih (fun c mem => h c (List.mem_cons_of_mem _ mem)) (raw ++ [c])
      rw [List.cons_append, pieces]
      simp only [if_true, notEnd, notQuote, notApostrophe, or_self, if_false, next]
      simp

theorem balanced_name {name : Text} (chars : ∀ c ∈ name, isNameChar c = true) : Balanced name := by
  refine balanced_plain fun c mem => ⟨?_, ?_, ?_⟩ <;>
  · rintro rfl
    have clash := chars _ mem
    rw [delimiter_not_name (by simp)] at clash
    cases clash

theorem balanced_quoted {raw : Text} (quoteless : '"' ∉ raw) : Balanced ('"' :: (raw ++ ['"'])) := by
  have inside : ∀ before rest, pieces true (some '"') before (raw ++ '"' :: rest) =
      pieces true none (before ++ raw ++ ['"']) rest := by
    intro before rest
    induction raw generalizing before with
    | nil =>
        rw [List.nil_append, pieces]
        simp
    | cons c raw ih =>
        rw [List.mem_cons, not_or] at quoteless
        rw [List.cons_append, pieces]
        simp only [if_true, Ne.symm quoteless.1, if_false, ih quoteless.2]
        simp
  intro before rest
  rw [List.cons_append, pieces]
  simp only [if_true, Char.reduceEq, if_false, true_or, List.append_assoc, List.singleton_append,
    inside]
  simp

theorem balanced_attributes {a : Text} {attrs : List (Text × Text)} (h : Attributes a attrs) :
    Balanced a := by
  induction h with
  | nil => exact fun raw rest => by simp
  | @cons name raw value more attrs named quoteless reads rest ih =>
      have blank : Balanced [' '] := balanced_plain (by simp)
      have equals : Balanced ['='] := balanced_plain (by simp)
      have whole := blank.append ((balanced_name (isNameChar_of_isName named)).append
        (equals.append ((balanced_quoted quoteless).append ih)))
      simpa using whole

/-- Outside of tags the reader starts with nothing read. -/
theorem pieces_markup {a : Text} (balanced : Balanced a) (rest : Text) :
    pieces false none [] ('<' :: (a ++ '>' :: rest)) =
      (pieces false none [] rest).map (.markup a :: ·) := by
  rw [pieces]
  simp only [Bool.false_eq_true, if_false, if_true, dataPiece, List.nil_append, Option.map_id']
  rw [balanced, pieces]
  simp

theorem pieces_data {raw : Text} (some_ : raw ≠ []) (plain : '<' ∉ raw) (rest : Text) :
    pieces false none [] (raw ++ '<' :: rest) =
      (pieces false none [] ('<' :: rest)).map (.data raw :: ·) := by
  have scanned : ∀ before, pieces false none before (raw ++ '<' :: rest) =
      pieces false none (before ++ raw) ('<' :: rest) := by
    intro before
    induction raw generalizing before with
    | nil => simp
    | cons c raw ih =>
        rw [List.mem_cons, not_or] at plain
        by_cases last : raw = []
        · subst last
          rw [List.cons_append, pieces]
          simp [Ne.symm plain.1]
        · rw [List.cons_append, pieces]
          simp only [Bool.false_eq_true, if_false, Ne.symm plain.1, ih last plain.2]
          simp
  rw [scanned, List.nil_append, pieces, pieces]
  simp only [Bool.false_eq_true, if_false, if_true, dataPiece, some_, List.nil_append,
    Option.map_id']
  rfl

theorem takeWhile_name {name a : Text} {attrs : List (Text × Text)} (tag : Tag name a attrs) :
    (name ++ a).takeWhile isNameChar = name ∧ (name ++ a).dropWhile isNameChar = a := by
  have chars := isNameChar_of_isName tag.named
  have stops : a.takeWhile isNameChar = [] ∧ a.dropWhile isNameChar = a := by
    cases tag.spelled with
    | nil => exact ⟨rfl, rfl⟩
    | cons named quoteless reads rest =>
        have blank : isNameChar ' ' = false := delimiter_not_name (by simp)
        exact ⟨List.takeWhile_cons_of_neg (by simp [blank]),
          List.dropWhile_cons_of_neg (by simp [blank])⟩
  rw [List.takeWhile_append_of_pos chars, List.dropWhile_append_of_pos chars, stops.1, stops.2,
    List.append_nil]
  exact ⟨rfl, rfl⟩

theorem readTag_spelled {name a : Text} {attrs : List (Text × Text)} (tag : Tag name a attrs)
    (single : Bool) : readTag single (name ++ a) =
      some (if single then .single name attrs else .opening name attrs) := by
  obtain ⟨before, behind⟩ := takeWhile_name tag
  unfold readTag
  simp only [before, behind, attributes_spelled tag.spelled, tag.named, tag.once, and_self, if_true]

/-- A tag begins with its name. -/
theorem readPiece_tag {name a raw : Text} {attrs : List (Text × Text)} (tag : Tag name a attrs) :
    readPiece (.markup (name ++ raw)) = if (name ++ raw).getLast? = some '/' then
      readTag true (name ++ raw).dropLast else readTag false (name ++ raw) := by
  have named := tag.named
  cases name with
  | nil => cases named
  | cons c name =>
      have notSlash : c ≠ '/' := by
        rintro rfl
        exact absurd (isNameStart_of_isName named) (by decide)
      rw [List.cons_append]
      unfold readPiece
      split
      · rename_i same
        cases same
      · rename_i same
        cases same
        exact absurd rfl notSlash
      · rename_i same
        cases same
        rfl

theorem readPiece_single {name a : Text} {attrs : List (Text × Text)} (tag : Tag name a attrs) :
    readPiece (.markup (name ++ a ++ ['/'])) = some (.single name attrs) := by
  rw [List.append_assoc, readPiece_tag tag, ← List.append_assoc, if_pos (by simp),
    List.dropLast_concat, readTag_spelled tag]
  rfl

theorem readPiece_opening {name a : Text} {attrs : List (Text × Text)} (tag : Tag name a attrs) :
    readPiece (.markup (name ++ a)) = some (.opening name attrs) := by
  have last : (name ++ a).getLast? ≠ some '/' := by
    intro slash
    have mem := List.mem_of_getLast? slash
    cases spelled : a with
    | nil =>
        rw [spelled, List.append_nil] at mem
        have clash := isNameChar_of_isName tag.named _ mem
        rw [delimiter_not_name (by simp)] at clash
        cases clash
    | cons c rest =>
        have closes : ∀ {a : Text} {attrs : List (Text × Text)}, Attributes a attrs → a ≠ [] →
            a.getLast? = some '"' := by
          intro a attrs h
          induction h with
          | nil => exact fun none => absurd rfl none
          | @cons name raw value more attrs named quoteless reads rest ih =>
              intro _
              have shape : ' ' :: (name ++ '=' :: '"' :: (raw ++ '"' :: more)) =
                  (' ' :: (name ++ '=' :: '"' :: raw)) ++ ('"' :: more) := by simp
              rw [shape, List.getLast?_append]
              cases more with
              | nil => rfl
              | cons c more =>
                  rw [List.getLast?_cons_cons, ih (by simp)]
                  rfl
        have quote := closes tag.spelled (by rw [spelled]; simp)
        rw [List.getLast?_append, quote] at slash
        cases slash
  rw [readPiece_tag tag, if_neg last, readTag_spelled tag]
  rfl

theorem readPiece_closing {name : Text} (named : isName name = true) :
    readPiece (.markup ('/' :: name)) = some (.closing name) := by
  simp [readPiece, named]

theorem readPiece_data {raw s : Text} (data : Data raw s) :
    readPiece (.data raw) = some (.text s) := by
  have none_ : (raw.tails.any fun s => [']', ']', '>'].isPrefixOf s) = false := by
    rw [List.any_eq_false]
    intro tail mem starts
    have inTail : '>' ∈ tail := (List.isPrefixOf_iff_prefix.mp starts).subset (by simp)
    exact data.plain.2 (((List.mem_tails _ _).mp mem).subset inTail)
  simp [readPiece, none_, data.expands]

/-- What the reader makes of a text between two tags, whatever follows it. -/
structure Reads (t : Text) (ns : List Node) (ps : List Piece) (ts : List Token) : Prop where
  cut : ∀ rest, pieces false none [] (t ++ rest) = (pieces false none [] rest).map (ps ++ ·)
  tokens : ps.mapM readPiece = some ts
  built : ∀ stack before more, build stack before (ts ++ more) = build stack (before ++ ns) more

theorem mapM_append {ps qs : List Piece} {ts us : List Token} (h : ps.mapM readPiece = some ts)
    (h' : qs.mapM readPiece = some us) : (ps ++ qs).mapM readPiece = some (ts ++ us) := by
  rw [List.mapM_append, h, h']
  rfl

theorem mapM_cons {p : Piece} {t : Token} (h : readPiece p = some t) {qs : List Piece}
    {us : List Token} (h' : qs.mapM readPiece = some us) :
    (p :: qs).mapM readPiece = some (t :: us) := by
  rw [List.mapM_cons, h, h']
  rfl

/-- By induction on the spelling: elements are read as the tree they spell. -/
theorem reads_elements {t : Text} {ns : List Node} (h : Elements t ns) :
    ∃ ps ts, Reads t ns ps ts := by
  induction h with
  | nil => exact ⟨[], [], fun rest => by simp, rfl, fun stack before more => by simp⟩
  | @single name a t attrs ns tag rest ih =>
      obtain ⟨ps, ts, reads⟩ := ih
      have slash : Balanced ['/'] := balanced_plain (by simp)
      have balanced := ((balanced_name (isNameChar_of_isName tag.named)).append
        (balanced_attributes tag.spelled)).append slash
      refine ⟨.markup (name ++ a ++ ['/']) :: ps, .single name attrs :: ts, ?_,
        mapM_cons (readPiece_single tag) reads.tokens, ?_⟩
      · intro more
        have cut := pieces_markup balanced (t ++ more)
        rw [reads.cut more, Option.map_map] at cut
        simpa [Function.comp_def] using cut
      · intro stack before more
        rw [List.cons_append, build, reads.built]
        simp
  | @data name a raw s t attrs ns tag data rest ih =>
      obtain ⟨ps, ts, reads⟩ := ih
      have balanced := (balanced_name (isNameChar_of_isName tag.named)).append
        (balanced_attributes tag.spelled)
      have closes : Balanced ('/' :: name) :=
        (balanced_plain (show ∀ c ∈ ['/'], c ≠ '>' ∧ c ≠ '"' ∧ c ≠ '\'' by simp)).append
          (balanced_name (isNameChar_of_isName tag.named))
      refine ⟨.markup (name ++ a) :: .data raw :: .markup ('/' :: name) :: ps,
        .opening name attrs :: .text s :: .closing name :: ts, ?_,
        mapM_cons (readPiece_opening tag) (mapM_cons (readPiece_data data)
          (mapM_cons (readPiece_closing tag.named) reads.tokens)), ?_⟩
      · intro more
        have opened := pieces_markup balanced
          (raw ++ '<' :: ('/' :: name ++ '>' :: (t ++ more)))
        rw [pieces_data data.some_ data.plain.1, pieces_markup closes, reads.cut more,
          Option.map_map, Option.map_map, Option.map_map] at opened
        simpa [Function.comp_def] using opened
      · intro stack before more
        simp only [List.cons_append, build, if_true, reads.built, List.nil_append]
        simp
  | @children name a c t attrs cs ns tag inner rest ihInner ih =>
      obtain ⟨ps, ts, reads⟩ := ih
      obtain ⟨qs, us, readsInner⟩ := ihInner
      have balanced := (balanced_name (isNameChar_of_isName tag.named)).append
        (balanced_attributes tag.spelled)
      have closes : Balanced ('/' :: name) :=
        (balanced_plain (show ∀ c ∈ ['/'], c ≠ '>' ∧ c ≠ '"' ∧ c ≠ '\'' by simp)).append
          (balanced_name (isNameChar_of_isName tag.named))
      refine ⟨.markup (name ++ a) :: (qs ++ .markup ('/' :: name) :: ps),
        .opening name attrs :: (us ++ .closing name :: ts), ?_,
        mapM_cons (readPiece_opening tag) (mapM_append readsInner.tokens
          (mapM_cons (readPiece_closing tag.named) reads.tokens)), ?_⟩
      · intro more
        have opened := pieces_markup balanced (c ++ '<' :: ('/' :: name ++ '>' :: (t ++ more)))
        rw [readsInner.cut, pieces_markup closes, reads.cut more, Option.map_map,
          Option.map_map, Option.map_map] at opened
        simpa [Function.comp_def] using opened
      · intro stack before more
        simp only [List.cons_append, List.append_assoc, build, readsInner.built, List.nil_append,
          if_true, reads.built]

theorem Elements.append {t u : Text} {ns ms : List Node} (h : Elements t ns)
    (h' : Elements u ms) : Elements (t ++ u) (ns ++ ms) := by
  induction h with
  | nil => exact h'
  | single tag rest ih =>
      have whole := Elements.single tag ih
      simpa using whole
  | data tag data rest ih =>
      have whole := Elements.data tag data ih
      simpa using whole
  | children tag inner rest ihInner ih =>
      have whole := Elements.children tag inner ih
      simpa using whole

theorem normalizeLines_same {s : Text} (h : '\r' ∉ s) : normalizeLines s = s := by
  induction s with
  | nil => rfl
  | cons c s ih =>
      rw [List.mem_cons, not_or] at h
      rw [normalizeLines.eq_def]
      split
      · rename_i same
        cases same
      · rename_i same
        cases same
        exact absurd rfl h.1
      · rename_i same
        cases same
        exact absurd rfl h.1
      · rename_i same
        cases same
        rw [ih h.2]

/-- A document whose root element is spelled is read as it. -/
theorem read_spelled {t : Text} {name : Text} {attrs : List (Text × Text)} {children : List Node}
    (h : Elements t [.element name attrs children]) (chars : ∀ c ∈ t, isChar c = true ∧ c ≠ '\r') :
    read (declaration ++ '\n' :: t) = some (.element name attrs children) := by
  obtain ⟨ps, ts, reads⟩ := reads_elements h
  have legal : ∀ c ∈ declaration ++ '\n' :: t, isChar c = true ∧ c ≠ '\r' := by
    intro c mem
    rcases List.mem_append.mp mem with mem | mem
    · have fixed : (declaration.all fun c => isChar c && c != '\r') = true := by decide
      obtain ⟨legal, kept⟩ := Bool.and_eq_true_iff.mp (List.all_eq_true.mp fixed c mem)
      exact ⟨legal, bne_iff_ne.mp kept⟩
    · rcases List.mem_cons.mp mem with rfl | mem
      · exact ⟨by decide, by decide⟩
      · exact chars c mem
  have lines : normalizeLines (declaration ++ '\n' :: t) = declaration ++ '\n' :: t :=
    normalizeLines_same fun mem => (legal _ mem).2 rfl
  have allowed : (declaration ++ '\n' :: t).all isChar = true :=
    List.all_eq_true.mpr fun c mem => (legal c mem).1
  have opens : declaration.isPrefixOf (declaration ++ '\n' :: t) = true :=
    List.isPrefixOf_iff_prefix.mpr (List.prefix_append _ _)
  have body : ('\n' :: t).dropWhile isSpace = t := by
    have opens : ∃ s, t = '<' :: s := by
      cases h <;> exact ⟨_, rfl⟩
    obtain ⟨s, rfl⟩ := opens
    rw [List.dropWhile_cons_of_pos (by decide), List.dropWhile_cons_of_neg (by decide)]
  have cut := reads.cut []
  have built := reads.built [] [] []
  rw [List.append_nil] at cut built
  unfold read
  simp only [lines, allowed, opens, Bool.not_true, Bool.or_self, Bool.false_eq_true, if_false,
    List.drop_left, body, cut]
  simp only [pieces, Bool.false_eq_true, if_false, dataPiece, if_true, Option.map_some,
    List.append_nil, Option.bind_eq_bind, Option.bind_some, reads.tokens, built]
  simp [build]

/-! ## What is read was there -/

theorem mem_normalizeLines {c : Char} (kept : c ≠ '\r') {s : Text} (h : c ∈ s) :
    c ∈ normalizeLines s := by
  fun_induction normalizeLines s with
  | case1 => exact h
  | case2 s ih =>
      simp only [List.mem_cons, kept, false_or] at h
      exact List.mem_cons.mpr (h.imp_right ih)
  | case3 s _ ih =>
      simp only [List.mem_cons, kept, false_or] at h
      exact List.mem_cons_of_mem _ (ih h)
  | case4 d s _ _ ih => exact List.mem_cons.mpr ((List.mem_cons.mp h).imp_right ih)

theorem return_not_mem_normalizeLines (s : Text) : '\r' ∉ normalizeLines s := by
  fun_induction normalizeLines s with
  | case1 => simp
  | case2 s ih => simpa using ih
  | case3 s _ ih => simpa using ih
  | case4 d s _ other ih =>
      rw [List.mem_cons, not_or]
      exact ⟨fun same => other same.symm, ih⟩

/-- A document with an illegal character is refused. -/
theorem read_illegal {s : Text} {c : Char} (mem : c ∈ s) (illegal : isChar c = false) :
    read s = none := by
  have kept : c ≠ '\r' := by
    rintro rfl
    exact absurd illegal (by decide)
  have refused : (normalizeLines s).all isChar = false := by
    rw [List.all_eq_false]
    exact ⟨c, mem_normalizeLines kept mem, by simp [illegal]⟩
  simp [read, refused]

section Only

variable {p : Char → Prop}

theorem only_expand (entities : ∀ c ∈ ['&', '<', '>', '"', '\''], p c) {raw s : Text}
    (only : ∀ c ∈ raw, p c) (h : expand raw = some s) : ∀ c ∈ s, p c := by
  have behind : ∀ {a : Char} {r s : Text}, (expand r).map (a :: ·) = some s → p a →
      (∀ s, (∀ c ∈ r, p c) → expand r = some s → ∀ c ∈ s, p c) → (∀ c ∈ r, p c) →
      ∀ c ∈ s, p c := by
    intro a r s h here ih only
    obtain ⟨t, read, rfl⟩ := Option.map_eq_some_iff.mp h
    intro c mem
    rcases List.mem_cons.mp mem with rfl | mem
    · exact here
    · exact ih t only read c mem
  fun_induction expand raw generalizing s with
  | case1 =>
      cases h
      exact nofun
  | case2 r ih => exact behind h (entities _ (by simp)) (fun _ => ih) fun c mem => only c (by simp [mem])
  | case3 r ih => exact behind h (entities _ (by simp)) (fun _ => ih) fun c mem => only c (by simp [mem])
  | case4 r ih => exact behind h (entities _ (by simp)) (fun _ => ih) fun c mem => only c (by simp [mem])
  | case5 r ih => exact behind h (entities _ (by simp)) (fun _ => ih) fun c mem => only c (by simp [mem])
  | case6 r ih => exact behind h (entities _ (by simp)) (fun _ => ih) fun c mem => only c (by simp [mem])
  | case7 => cases h
  | case8 d r _ _ _ _ _ _ ih =>
      exact behind h (only d (List.mem_cons_self ..)) (fun _ => ih)
        fun c mem => only c (List.mem_cons_of_mem _ mem)

def Piece.Only (p : Char → Prop) : Piece → Prop
  | .data raw => ∀ c ∈ raw, p c
  | .markup _ => True

theorem only_pieces {inside : Bool} {quote : Option Char} {raw s : Text} {ps : List Piece}
    (before : inside = false → ∀ c ∈ raw, p c) (only : ∀ c ∈ s, p c)
    (h : pieces inside quote raw s = some ps) : ∀ piece ∈ ps, piece.Only p := by
  have dataOnly : ∀ {raw : Text}, (∀ c ∈ raw, p c) → ∀ piece ∈ dataPiece raw, piece.Only p := by
    intro raw only piece mem
    unfold dataPiece at mem
    split at mem
    · cases mem
    · rw [List.mem_singleton.mp mem]
      exact only
  induction s generalizing inside quote raw ps with
  | nil =>
      cases inside with
      | true => cases h
      | false =>
          cases h
          exact dataOnly (before rfl)
  | cons c s ih =>
      have rest : ∀ c ∈ s, p c := fun c mem => only c (List.mem_cons_of_mem _ mem)
      rw [pieces.eq_def] at h
      cases inside with
      | true =>
          simp only [if_true] at h
          split at h
          · exact ih (by simp) rest h
          · split at h
            · obtain ⟨more, read, rfl⟩ := Option.map_eq_some_iff.mp h
              intro piece mem
              rcases List.mem_cons.mp mem with rfl | mem
              · trivial
              · exact ih (by simp) rest read piece mem
            · exact ih (by simp) rest h
      | false =>
          simp only [Bool.false_eq_true, if_false] at h
          split at h
          · obtain ⟨more, read, rfl⟩ := Option.map_eq_some_iff.mp h
            intro piece mem
            rcases List.mem_append.mp mem with mem | mem
            · exact dataOnly (before rfl) piece mem
            · exact ih (by simp) rest read piece mem
          · refine ih (fun _ d mem => ?_) rest h
            rcases List.mem_append.mp mem with mem | mem
            · exact before rfl d mem
            · rw [List.mem_singleton.mp mem]
              exact only c (List.mem_cons_self ..)

def Token.Only (p : Char → Prop) : Token → Prop
  | .text s => ∀ c ∈ s, p c
  | _ => True

theorem only_readTag {single : Bool} {raw : Text} {t : Token} (h : readTag single raw = some t) :
    t.Only p := by
  unfold readTag at h
  simp only at h
  split at h
  · cases h
  · split at h
    · cases h
      cases single <;> trivial
    · cases h

theorem only_readPiece (entities : ∀ c ∈ ['&', '<', '>', '"', '\''], p c) {piece : Piece}
    (only : piece.Only p) {t : Token} (h : readPiece piece = some t) : t.Only p := by
  unfold readPiece at h
  split at h
  · split at h
    · cases h
    · obtain ⟨s, read, rfl⟩ := Option.map_eq_some_iff.mp h
      exact only_expand entities only read
  · split at h
    · cases h
      trivial
    · cases h
  · split at h <;> exact only_readTag h

/-- The character data of a tree. -/
inductive Node.Only (p : Char → Prop) : Node → Prop where
  | text {s : Text} (only : ∀ c ∈ s, p c) : Node.Only p (.text s)
  | element {name : Text} {attrs : List (Text × Text)} {children : List Node}
      (only : ∀ child ∈ children, Node.Only p child) : Node.Only p (.element name attrs children)

theorem only_build {ts : List Token} (only : ∀ t ∈ ts, t.Only p)
    {stack : List (Text × List (Text × Text) × List Node)} {before ns : List Node}
    (outer : ∀ frame ∈ stack, ∀ n ∈ frame.2.2, Node.Only p n) (inner : ∀ n ∈ before, Node.Only p n)
    (h : build stack before ts = some ns) : ∀ n ∈ ns, Node.Only p n := by
  have concat : ∀ {ns : List Node} {n : Node}, (∀ m ∈ ns, Node.Only p m) → Node.Only p n →
      ∀ m ∈ ns ++ [n], Node.Only p m := by
    intro ns n all one m mem
    rcases List.mem_append.mp mem with mem | mem
    · exact all m mem
    · rw [List.mem_singleton.mp mem]
      exact one
  induction ts generalizing stack before with
  | nil =>
      unfold build at h
      split at h
      · cases h
        exact inner
      · cases h
  | cons t ts ih =>
      have here := only t (List.mem_cons_self ..)
      have rest : ∀ t ∈ ts, t.Only p := fun t mem => only t (List.mem_cons_of_mem _ mem)
      cases t with
      | text s => exact ih rest outer (concat inner (.text here)) h
      | single name attrs => exact ih rest outer (concat inner (.element (by simp))) h
      | opening name attrs =>
          refine ih rest ?_ (by simp) h
          intro frame mem
          rcases List.mem_cons.mp mem with rfl | mem
          · exact inner
          · exact outer frame mem
      | closing name =>
          cases stack with
          | nil => cases h
          | cons frame stack =>
              obtain ⟨name', attrs, before'⟩ := frame
              rw [build] at h
              split at h
              · have outside := outer _ (List.mem_cons_self ..)
                exact ih rest (fun frame mem => outer frame (List.mem_cons_of_mem _ mem))
                  (concat outside (.element inner)) h
              · cases h

end Only

theorem mem_mapM {ps : List Piece} {ts : List Token} (h : ps.mapM readPiece = some ts) {t : Token}
    (mem : t ∈ ts) : ∃ piece ∈ ps, readPiece piece = some t := by
  induction ps generalizing ts with
  | nil =>
      cases h
      cases mem
  | cons piece ps ih =>
      simp only [List.mapM_cons, Option.bind_eq_bind, Option.bind_eq_some_iff] at h
      obtain ⟨t', read, ts', rest, same⟩ := h
      cases same
      rcases List.mem_cons.mp mem with rfl | mem
      · exact ⟨piece, List.mem_cons_self .., read⟩
      · obtain ⟨piece', inPieces, read'⟩ := ih rest mem
        exact ⟨piece', List.mem_cons_of_mem _ inPieces, read'⟩

/-- No carriage return is left in a document that is read. -/
theorem read_only {s : Text} {n : Node} (h : read s = some n) : Node.Only (· ≠ '\r') n := by
  unfold read at h
  simp only at h
  split at h
  · cases h
  · simp only [Option.bind_eq_bind, Option.bind_eq_some_iff] at h
    obtain ⟨ps, cut, ts, tokens, ns, built, root⟩ := h
    have chars : ∀ c ∈ ((normalizeLines s).drop declaration.length).dropWhile isSpace,
        c ≠ '\r' := by
      rintro c mem rfl
      exact return_not_mem_normalizeLines s
        (List.mem_of_mem_drop ((List.dropWhile_sublist _).subset mem))
    have pieceOnly := only_pieces (p := (· ≠ '\r')) (by simp) chars cut
    have tokenOnly : ∀ t ∈ ts, t.Only (· ≠ '\r') := by
      intro t mem
      obtain ⟨piece, inPieces, read⟩ := mem_mapM tokens mem
      exact only_readPiece (by simp) (pieceOnly piece inPieces) read
    have nodeOnly := only_build tokenOnly (by simp) (by simp) built
    split at root
    · cases root
      exact nodeOnly _ (List.mem_cons_self ..)
    · cases root

end Graphy.Xml
