import Graphy.Protocol.Proofs.Tables

/-!
# Reading XML

The document of a table spells a tree that reads back as the table, when its characters are
ones that the reader passes on.
-/

namespace Graphy.Protocol

open Graphy.Concise Graphy.Turtle Graphy.Xml

/-! ## Escapes -/

/-- What stands for a character. -/
def entity (c : Char) : Text :=
  if c = '&' then ['&', 'a', 'm', 'p', ';']
  else if c = '<' then ['&', 'l', 't', ';']
  else if c = '>' then ['&', 'g', 't', ';']
  else if c = '"' then ['&', 'q', 'u', 'o', 't', ';']
  else [c]

theorem xmlEscape_eq (s : Text) : xmlEscape s = s.flatMap entity := by
  unfold xmlEscape replaceChar
  rw [List.flatMap_assoc, List.flatMap_assoc, List.flatMap_assoc]
  refine List.flatMap_congr fun c _ => ?_
  unfold entity
  by_cases amp : c = '&'
  · subst amp
    decide
  by_cases lt : c = '<'
  · subst lt
    decide
  by_cases gt : c = '>'
  · subst gt
    decide
  by_cases quote : c = '"'
  · subst quote
    decide
  simp only [amp, lt, gt, quote, if_false, List.flatMap_cons, List.flatMap_nil, List.append_nil]

theorem xmlEscape_cons (c : Char) (s : Text) : xmlEscape (c :: s) = entity c ++ xmlEscape s := by
  rw [xmlEscape_eq, List.flatMap_cons, ← xmlEscape_eq]

theorem expand_plain {c : Char} (h : c ≠ '&') (s : Text) :
    expand (c :: s) = (expand s).map (c :: ·) := by
  have other : ∀ t, c :: s ≠ '&' :: t := fun t same => h (List.cons.inj same).1
  rw [expand.eq_def]
  split
  · rename_i same
    cases same
  · rename_i same
    exact absurd same (other _)
  · rename_i same
    exact absurd same (other _)
  · rename_i same
    exact absurd same (other _)
  · rename_i same
    exact absurd same (other _)
  · rename_i same
    exact absurd same (other _)
  · rename_i same
    cases same
    exact if_neg h

/-- Escaped text expands to the text. -/
theorem expand_xmlEscape (s : Text) : expand (xmlEscape s) = some s := by
  induction s with
  | nil => rfl
  | cons c s ih =>
      rw [xmlEscape_cons]
      unfold entity
      split
      · rename_i same
        simp only [List.cons_append, List.nil_append, expand, ih, same, Option.map_some]
      · rename_i plain
        split
        · rename_i same
          simp only [List.cons_append, List.nil_append, expand, ih, same, Option.map_some]
        · split
          · rename_i same
            simp only [List.cons_append, List.nil_append, expand, ih, same, Option.map_some]
          · split
            · rename_i same
              simp only [List.cons_append, List.nil_append, expand, ih, same, Option.map_some]
            · rw [List.singleton_append, expand_plain plain, ih, Option.map_some]

/-- The characters of the entities. -/
def entityChars : Text := ['&', 'a', 'm', 'p', ';', 'l', 't', 'g', 'q', 'u', 'o']

/-- A character of escaped text stands for itself or in an entity. -/
theorem mem_xmlEscape {s : Text} {c : Char} (h : c ∈ xmlEscape s) :
    (c ∈ s ∧ c ∉ ['<', '>', '"']) ∨ c ∈ entityChars := by
  rw [xmlEscape_eq] at h
  obtain ⟨d, inText, spelled⟩ := List.mem_flatMap.mp h
  have fixed : ∀ e ∈ ['&', '<', '>', '"'], ∀ c ∈ entity e, c ∈ entityChars := by
    intro e mem
    simp only [List.mem_cons, List.not_mem_nil, or_false] at mem
    rcases mem with rfl | rfl | rfl | rfl <;> exact forall_of_all (by decide)
  by_cases escaped : d ∈ ['&', '<', '>', '"']
  · exact .inr (fixed d escaped c spelled)
  · simp only [List.mem_cons, List.not_mem_nil, or_false, not_or] at escaped
    rw [show entity d = [d] by simp [entity, escaped], List.mem_singleton] at spelled
    subst spelled
    exact .inl ⟨inText, by simp [escaped]⟩

theorem not_mem_xmlEscape {c : Char} (h : c ∈ ['<', '>', '"']) (s : Text) : c ∉ xmlEscape s := by
  intro mem
  rcases mem_xmlEscape mem with ⟨-, plain⟩ | fixed
  · exact plain h
  · have apart : ∀ c ∈ ['<', '>', '"'], c ∉ entityChars := forall_of_all (by decide)
    exact apart c h fixed

theorem mem_xmlEscape_of_mem {s : Text} {c : Char} (h : c ∈ s) (plain : c ∉ ['&', '<', '>', '"']) :
    c ∈ xmlEscape s := by
  simp only [List.mem_cons, List.not_mem_nil, or_false, not_or] at plain
  rw [xmlEscape_eq]
  refine List.mem_flatMap.mpr ⟨c, h, ?_⟩
  simp [entity, plain]

/-! ## Elements -/

/-- Character data as the children of an element. -/
def dataNodes (s : Text) : List Node := if s = [] then [] else [.text s]

theorem xmlEscape_ne_nil {s : Text} (some_ : s ≠ []) : xmlEscape s ≠ [] := by
  intro none_
  have expanded := expand_xmlEscape s
  rw [none_] at expanded
  cases expanded
  exact some_ rfl

/-- An element with escaped text in it. -/
theorem elements_data {name a : Text} {attrs : List (Text × Text)} (tag : Tag name a attrs)
    (s : Text) : Elements ('<' :: (name ++ a ++ '>' :: (xmlEscape s ++ '<' :: '/' :: (name ++ ['>']))))
      [.element name attrs (dataNodes s)] := by
  unfold dataNodes
  split
  · rename_i none_
    subst none_
    exact .children tag .nil .nil
  · rename_i some_
    refine .data tag ⟨xmlEscape_ne_nil some_, ?_, expand_xmlEscape s⟩ .nil
    exact ⟨not_mem_xmlEscape (by simp) s, not_mem_xmlEscape (by simp) s⟩

theorem elements_children {name a c : Text} {attrs : List (Text × Text)} {cs : List Node}
    (tag : Tag name a attrs) (inner : Elements c cs) :
    Elements ('<' :: (name ++ a ++ '>' :: (c ++ '<' :: '/' :: (name ++ ['>']))))
      [.element name attrs cs] := .children tag inner .nil

/-- An attribute whose value has no spaces but blanks. -/
theorem attributes_escaped {name s : Text} {a : Text} {attrs : List (Text × Text)}
    (named : isName name = true) (above : ∀ c ∈ s, 0x20 < c.toNat) (rest : Attributes a attrs) :
    Attributes (' ' :: (name ++ '=' :: '"' :: (xmlEscape s ++ '"' :: a))) ((name, s) :: attrs) := by
  have bracketless : (xmlEscape s).contains '<' = false := by
    rw [List.contains_eq_mem, decide_eq_false_iff_not]
    exact not_mem_xmlEscape (by simp) s
  have kept : s.map (fun c => if isSpace c then ' ' else c) = s := by
    refine (List.map_congr_left fun c mem => ?_).trans (List.map_id' s)
    have high := above c mem
    have other : ∀ d : Char, d.toNat ≤ 0x20 → c ≠ d := fun d low =>
      ne_of_lt_toNat (Nat.lt_of_le_of_lt low high)
    rw [if_neg]
    simp [isSpace, other ' ' (by decide), other '\t' (by decide), other '\n' (by decide),
      other '\r' (by decide)]
  refine .cons named (not_mem_xmlEscape (by simp) s) ?_ rest
  rw [readValue, bracketless, expand_xmlEscape]
  simp only [Bool.false_eq_true, if_false, Option.map_some, kept]

theorem tag_plain {name : Text} (named : isName name = true) : Tag name [] [] :=
  ⟨named, .nil, List.nodup_nil⟩

/-! ## Terms -/

def dirValue : Dir → Text
  | .ltr => ['l', 't', 'r']
  | .rtl => ['r', 't', 'l']

/-- The attributes of a literal's element. -/
def literalAttributes : TermView → List (Text × Text)
  | .lang _ tag none => [("xml:lang".toList, tag.toList)]
  | .lang _ tag (some dir) => [("xml:lang".toList, tag.toList), ("its:dir".toList, dirValue dir)]
  | .datatyped _ dt => [("datatype".toList, dt.toList)]
  | _ => []

/-- The element of a term. -/
def termNode : TermView → Node
  | .iri i => .element "uri".toList [] (dataNodes i.toList)
  | .blankNode label => .element "bnode".toList [] (dataNodes label.toList)
  | .simple lex => .element "literal".toList [] (dataNodes lex.toList)
  | .lang lex tag dir =>
      .element "literal".toList (literalAttributes (.lang lex tag dir)) (dataNodes lex.toList)
  | .datatyped lex dt =>
      .element "literal".toList (literalAttributes (.datatyped lex dt)) (dataNodes lex.toList)
  | .tripleTerm s p o =>
      .element "triple".toList []
        [.element "subject".toList [] [termNode s], .element "predicate".toList [] [termNode p],
          .element "object".toList [] [termNode o]]

theorem termRefXml_iri (i : String) : termRefXml (.iri i) =
    "<uri>".toList ++ xmlEscape i.toList ++ "</uri>".toList := rfl

theorem termRefXml_blankNode (label : String) : termRefXml (.blankNode label) =
    "<bnode>".toList ++ xmlEscape label.toList ++ "</bnode>".toList := rfl

theorem termRefXml_simple (lex : String) : termRefXml (.simple lex) =
    "<literal>".toList ++ xmlEscape lex.toList ++ "</literal>".toList := rfl

theorem termRefXml_lang (lex tag : String) (dir : Option Dir) : termRefXml (.lang lex tag dir) =
    "<literal xml:lang=\"".toList ++ xmlEscape tag.toList ++ "\"".toList ++ dirXml dir ++
      ">".toList ++ xmlEscape lex.toList ++ "</literal>".toList := rfl

theorem termRefXml_datatyped {lex dt : String} (ordinary : dt ≠ Graphy.Vocab.xsdString) :
    termRefXml (.datatyped lex dt) = "<literal datatype=\"".toList ++ xmlEscape dt.toList ++
      "\">".toList ++ xmlEscape lex.toList ++ "</literal>".toList := if_neg ordinary

theorem termRefXml_tripleTerm (s p o : TermView) : termRefXml (.tripleTerm s p o) =
    "<triple><subject>".toList ++ termRefXml s ++ "</subject><predicate>".toList ++ termRefXml p ++
      "</predicate><object>".toList ++ termRefXml o ++ "</object></triple>".toList := rfl

/-- By induction on the term: its text spells its element. -/
theorem elements_term {v : TermView} (valid : v.Valid) : Elements (termRefXml v) [termNode v] := by
  have literal : isName "literal".toList = true := by decide
  have closes : "</literal>".toList = '<' :: '/' :: ("literal".toList ++ ['>']) := by decide
  induction v with
  | iri i =>
      have spelled := elements_data (tag_plain (show isName "uri".toList = true by decide)) i.toList
      have opens : "<uri>".toList = '<' :: ("uri".toList ++ ['>']) := by decide
      have closes : "</uri>".toList = '<' :: '/' :: ("uri".toList ++ ['>']) := by decide
      have shape : termRefXml (.iri i) = '<' :: ("uri".toList ++ [] ++ '>' ::
          (xmlEscape i.toList ++ '<' :: '/' :: ("uri".toList ++ ['>']))) := by
        rw [termRefXml_iri, opens, closes]
        simp only [List.append_assoc, List.cons_append, List.nil_append]
      rw [shape]
      exact spelled
  | blankNode label =>
      have spelled := elements_data (tag_plain (show isName "bnode".toList = true by decide)) label.toList
      have opens : "<bnode>".toList = '<' :: ("bnode".toList ++ ['>']) := by decide
      have closes : "</bnode>".toList = '<' :: '/' :: ("bnode".toList ++ ['>']) := by decide
      have shape : termRefXml (.blankNode label) = '<' :: ("bnode".toList ++ [] ++ '>' ::
          (xmlEscape label.toList ++ '<' :: '/' :: ("bnode".toList ++ ['>']))) := by
        rw [termRefXml_blankNode, opens, closes]
        simp only [List.append_assoc, List.cons_append, List.nil_append]
      rw [shape]
      exact spelled
  | simple lex =>
      have spelled := elements_data (tag_plain literal) lex.toList
      have opens : "<literal>".toList = '<' :: ("literal".toList ++ ['>']) := by decide
      have shape : termRefXml (.simple lex) = '<' :: ("literal".toList ++ [] ++ '>' ::
          (xmlEscape lex.toList ++ '<' :: '/' :: ("literal".toList ++ ['>']))) := by
        rw [termRefXml_simple, opens, closes]
        simp only [List.append_assoc, List.cons_append, List.nil_append]
      rw [shape]
      exact spelled
  | lang lex tag dir =>
      have opens : "<literal xml:lang=\"".toList =
          '<' :: ("literal".toList ++ ' ' :: ("xml:lang".toList ++ ['=', '"'])) := by decide
      have quote : "\"".toList = ['"'] := by decide
      have close : ">".toList = ['>'] := by decide
      have above := langTag_chars valid
      have named : isName "xml:lang".toList = true := by decide
      cases dir with
      | none =>
          have attrs := attributes_escaped named above .nil
          have spelled := elements_data ⟨literal, attrs, by simp⟩ lex.toList
          have shape : termRefXml (.lang lex tag none) = '<' :: ("literal".toList ++
              ' ' :: ("xml:lang".toList ++ '=' :: '"' :: (xmlEscape tag.toList ++ '"' :: [])) ++
              '>' :: (xmlEscape lex.toList ++ '<' :: '/' :: ("literal".toList ++ ['>']))) := by
            rw [termRefXml_lang, opens, closes, quote, close, show dirXml none = [] from rfl]
            simp only [List.append_assoc, List.cons_append, List.nil_append]
          rw [shape]
          exact spelled
      | some dir =>
          have direction : dirXml (some dir) =
              ' ' :: ("its:dir".toList ++ '=' :: '"' :: (xmlEscape (dirValue dir) ++ '"' :: [])) := by
            cases dir <;> decide
          have attrs := attributes_escaped named above (attributes_escaped
            (show isName "its:dir".toList = true by decide)
            (show ∀ c ∈ dirValue dir, 0x20 < c.toNat by
              cases dir <;> exact forall_of_all (by decide)) .nil)
          have spelled := elements_data ⟨literal, attrs, by simp⟩ lex.toList
          have shape : termRefXml (.lang lex tag (some dir)) = '<' :: ("literal".toList ++
              ' ' :: ("xml:lang".toList ++ '=' :: '"' :: (xmlEscape tag.toList ++ '"' ::
                ' ' :: ("its:dir".toList ++ '=' :: '"' :: (xmlEscape (dirValue dir) ++ '"' :: [])))) ++
              '>' :: (xmlEscape lex.toList ++ '<' :: '/' :: ("literal".toList ++ ['>']))) := by
            rw [termRefXml_lang, opens, closes, quote, close, direction]
            simp only [List.append_assoc, List.cons_append, List.nil_append]
          rw [shape]
          exact spelled
  | datatyped lex dt =>
      have ordinary : dt ≠ Graphy.Vocab.xsdString := fun same => valid.2 (.inl same)
      have opens : "<literal datatype=\"".toList =
          '<' :: ("literal".toList ++ ' ' :: ("datatype".toList ++ ['=', '"'])) := by decide
      have quote : "\">".toList = ['"', '>'] := by decide
      have attrs := attributes_escaped (show isName "datatype".toList = true by decide)
        (iri_chars valid.1) .nil
      have spelled := elements_data ⟨literal, attrs, by simp⟩ lex.toList
      have shape : termRefXml (.datatyped lex dt) = '<' :: ("literal".toList ++
          ' ' :: ("datatype".toList ++ '=' :: '"' :: (xmlEscape dt.toList ++ '"' :: [])) ++
          '>' :: (xmlEscape lex.toList ++ '<' :: '/' :: ("literal".toList ++ ['>']))) := by
        rw [termRefXml_datatyped ordinary, opens, closes, quote]
        simp only [List.append_assoc, List.cons_append, List.nil_append]
      rw [shape]
      exact spelled
  | tripleTerm s p o ihS ihP ihO =>
      obtain ⟨-, validS, validP, validO⟩ := valid
      have partS := elements_children
        (tag_plain (show isName "subject".toList = true by decide)) (ihS validS)
      have partP := elements_children
        (tag_plain (show isName "predicate".toList = true by decide)) (ihP validP)
      have partO := elements_children
        (tag_plain (show isName "object".toList = true by decide)) (ihO validO)
      have spelled := elements_children (tag_plain (show isName "triple".toList = true by decide))
        (partS.append (partP.append partO))
      have opens : "<triple><subject>".toList =
          '<' :: ("triple".toList ++ '>' :: '<' :: ("subject".toList ++ ['>'])) := by decide
      have first : "</subject><predicate>".toList =
          '<' :: '/' :: ("subject".toList ++ '>' :: '<' :: ("predicate".toList ++ ['>'])) := by decide
      have second : "</predicate><object>".toList =
          '<' :: '/' :: ("predicate".toList ++ '>' :: '<' :: ("object".toList ++ ['>'])) := by decide
      have last : "</object></triple>".toList = '<' :: '/' :: ("object".toList ++ '>' :: '<' :: '/' ::
          ("triple".toList ++ ['>'])) := by decide
      rw [termRefXml_tripleTerm, opens, first, second, last]
      simp only [List.append_assoc, List.cons_append, List.nil_append] at spelled ⊢
      exact spelled

/-! ## Characters of the document -/

/-- The reader passes the character on as it is. -/
def Legal (c : Char) : Prop := isChar c = true ∧ c ≠ '\r'

/-- The marks that the document is made of. -/
def isMark (c : Char) : Bool := c == '\n' || decide (0x20 ≤ c.toNat ∧ c.toNat ≤ 0x7E)

theorem legal_marks {s : Text} (marks : s.all isMark = true) : ∀ c ∈ s, Legal c := by
  intro c mem
  have mark := List.all_eq_true.mp marks c mem
  rw [isMark, Bool.or_eq_true, beq_iff_eq, decide_eq_true_eq] at mark
  rcases mark with rfl | ⟨low, high⟩
  · exact ⟨by decide, by decide⟩
  · refine ⟨?_, ne_of_lt_toNat (Nat.lt_of_lt_of_le (by decide) low)⟩
    simp only [isChar, Bool.or_eq_true, decide_eq_true_eq]
    omega

theorem legal_xmlEscape {s : Text} (legal : ∀ c ∈ s, Legal c) : ∀ c ∈ xmlEscape s, Legal c := by
  intro c mem
  rcases mem_xmlEscape mem with ⟨inText, -⟩ | inEntity
  · exact legal c inText
  · exact legal_marks (show entityChars.all isMark = true by decide) c inEntity

/-- By induction on the term. -/
theorem legal_termRefXml {v : TermView} (valid : v.Valid) (legal : ∀ c ∈ chars v, Legal c) :
    ∀ c ∈ termRefXml v, Legal c := by
  induction v with
  | iri i =>
      rw [termRefXml_iri, List.forall_mem_append, List.forall_mem_append]
      exact ⟨⟨legal_marks (by decide), legal_xmlEscape legal⟩, legal_marks (by decide)⟩
  | blankNode label =>
      rw [termRefXml_blankNode, List.forall_mem_append, List.forall_mem_append]
      exact ⟨⟨legal_marks (by decide), legal_xmlEscape legal⟩, legal_marks (by decide)⟩
  | simple lex =>
      rw [termRefXml_simple, List.forall_mem_append, List.forall_mem_append]
      exact ⟨⟨legal_marks (by decide), legal_xmlEscape legal⟩, legal_marks (by decide)⟩
  | lang lex tag dir =>
      obtain ⟨inTag, inLex⟩ := List.forall_mem_append.mp legal
      have direction : ∀ c ∈ dirXml dir, Legal c :=
        legal_marks (by rcases dir with _ | _ | _ <;> decide)
      rw [termRefXml_lang]
      simp only [List.forall_mem_append]
      exact ⟨⟨⟨⟨⟨⟨legal_marks (by decide), legal_xmlEscape inTag⟩, legal_marks (by decide)⟩, direction⟩,
        legal_marks (by decide)⟩, legal_xmlEscape inLex⟩, legal_marks (by decide)⟩
  | datatyped lex dt =>
      obtain ⟨inDt, inLex⟩ := List.forall_mem_append.mp legal
      rw [termRefXml_datatyped fun same => valid.2 (.inl same)]
      simp only [List.forall_mem_append]
      exact ⟨⟨⟨⟨legal_marks (by decide), legal_xmlEscape inDt⟩, legal_marks (by decide)⟩, legal_xmlEscape inLex⟩,
        legal_marks (by decide)⟩
  | tripleTerm s p o ihS ihP ihO =>
      obtain ⟨-, validS, validP, validO⟩ := valid
      obtain ⟨legal, inO⟩ := List.forall_mem_append.mp legal
      obtain ⟨inS, inP⟩ := List.forall_mem_append.mp legal
      rw [termRefXml_tripleTerm]
      simp only [List.forall_mem_append]
      exact ⟨⟨⟨⟨⟨⟨legal_marks (by decide), ihS validS inS⟩, legal_marks (by decide)⟩, ihP validP inP⟩,
        legal_marks (by decide)⟩, ihO validO inO⟩, legal_marks (by decide)⟩

/-- By induction on the term: a character without an entity stands in the document. -/
theorem mem_termRefXml {c : Char} (plain : c ∉ ['&', '<', '>', '"']) {v : TermView} (valid : v.Valid)
    (h : c ∈ chars v) : c ∈ termRefXml v := by
  have text : ∀ {s : Text}, c ∈ s → c ∈ xmlEscape s := fun mem => mem_xmlEscape_of_mem mem plain
  induction v with
  | iri i =>
      rw [termRefXml_iri]
      exact List.mem_append_left _ (List.mem_append_right _ (text h))
  | blankNode label =>
      rw [termRefXml_blankNode]
      exact List.mem_append_left _ (List.mem_append_right _ (text h))
  | simple lex =>
      rw [termRefXml_simple]
      exact List.mem_append_left _ (List.mem_append_right _ (text h))
  | lang lex tag dir =>
      rw [termRefXml_lang]
      simp only [List.mem_append]
      rcases List.mem_append.mp h with inTag | inLex
      · simp only [text inTag, or_true, true_or]
      · simp only [text inLex, or_true, true_or]
  | datatyped lex dt =>
      rw [termRefXml_datatyped fun same => valid.2 (.inl same)]
      simp only [List.mem_append]
      rcases List.mem_append.mp h with inDt | inLex
      · simp only [text inDt, or_true, true_or]
      · simp only [text inLex, or_true, true_or]
  | tripleTerm s p o ihS ihP ihO =>
      obtain ⟨-, validS, validP, validO⟩ := valid
      rw [termRefXml_tripleTerm]
      simp only [List.mem_append]
      rcases List.mem_append.mp h with h | inO
      · rcases List.mem_append.mp h with inS | inP
        · simp only [ihS validS inS, or_true, true_or]
        · simp only [ihP validP inP, or_true, true_or]
      · simp only [ihO validO inO, or_true, true_or]

/-! ## Reading a term -/

theorem dataOf_dataNodes (s : String) : dataOf (dataNodes s.toList) = some s := by
  unfold dataNodes
  split
  · rename_i none_
    have empty : s = "" := String.toList_inj.mp none_
    rw [empty]
    rfl
  · rw [dataOf, String.ofList_toList]

theorem readTermXml_literal (directions : Bool) (levels : Nat) (attrs : List (Text × Text))
    (children : List Node) : readTermXml directions (levels + 1)
      (.element "literal".toList attrs children) = (dataOf children).bind fun lex =>
        readLiteralXml directions lex attrs := if_pos rfl

/-- An element that is no literal. -/
theorem readTermXml_other (directions : Bool) (levels : Nat) {name : Text}
    (other : name ≠ "literal".toList) (children : List Node) :
    readTermXml directions (levels + 1) (.element name [] children) =
      if name = "uri".toList then (dataOf children).map .iri
      else if name = "bnode".toList then (dataOf children).map .blankNode
      else if name = "triple".toList then
        match children with
        | [s, p, o] => do
            let s ← ((childrenOf "subject" s).bind onlyOne).bind (readTermXml directions levels)
            let p ← ((childrenOf "predicate" p).bind onlyOne).bind (readTermXml directions levels)
            let o ← ((childrenOf "object" o).bind onlyOne).bind (readTermXml directions levels)
            return .tripleTerm s p o
        | _ => none
      else none := if_neg other

theorem childrenOf_element (name : String) (children : List Node) :
    childrenOf name (.element name.toList [] children) = some children := if_pos ⟨rfl, rfl⟩

/-- By induction on the term: its element is read as the term. -/
theorem readTermXml_termNode {v : TermView} (valid : v.Valid) {levels : Nat}
    (depth : v.depth < levels) {directions : Bool}
    (declared : hasDirection v = true → directions = true) :
    readTermXml directions levels (termNode v) = some v := by
  induction v generalizing levels with
  | iri i =>
      obtain ⟨levels, rfl⟩ := Nat.exists_eq_succ_of_ne_zero (Nat.ne_zero_of_lt depth)
      have read := readTermXml_other directions levels (show "uri".toList ≠ "literal".toList by decide)
        (dataNodes i.toList)
      rw [if_pos rfl, dataOf_dataNodes, Option.map_some] at read
      exact read
  | blankNode label =>
      obtain ⟨levels, rfl⟩ := Nat.exists_eq_succ_of_ne_zero (Nat.ne_zero_of_lt depth)
      have read := readTermXml_other directions levels (show "bnode".toList ≠ "literal".toList by decide)
        (dataNodes label.toList)
      rw [if_neg (by decide), if_pos rfl, dataOf_dataNodes, Option.map_some] at read
      exact read
  | simple lex =>
      obtain ⟨levels, rfl⟩ := Nat.exists_eq_succ_of_ne_zero (Nat.ne_zero_of_lt depth)
      have read := readTermXml_literal directions levels [] (dataNodes lex.toList)
      rw [dataOf_dataNodes, Option.bind_some] at read
      exact read
  | lang lex tag dir =>
      obtain ⟨levels, rfl⟩ := Nat.exists_eq_succ_of_ne_zero (Nat.ne_zero_of_lt depth)
      have read := readTermXml_literal directions levels (literalAttributes (.lang lex tag dir))
        (dataNodes lex.toList)
      rw [dataOf_dataNodes, Option.bind_some] at read
      have attrs : readLiteralXml directions lex (literalAttributes (.lang lex tag dir)) =
          some (.lang lex tag dir) := by
        cases dir with
        | none =>
            unfold literalAttributes readLiteralXml
            simp only [if_true, String.ofList_toList]
        | some dir =>
            have value : dirOf (dirValue dir) = some dir := by cases dir <;> decide
            have on : directions = true := declared rfl
            unfold literalAttributes readLiteralXml
            simp only [on, and_self, if_true, value, Option.map_some, String.ofList_toList]
      rw [attrs] at read
      exact read
  | datatyped lex dt =>
      obtain ⟨levels, rfl⟩ := Nat.exists_eq_succ_of_ne_zero (Nat.ne_zero_of_lt depth)
      have ordinary : dt ≠ Graphy.Vocab.xsdString := fun same => valid.2 (.inl same)
      have read := readTermXml_literal directions levels (literalAttributes (.datatyped lex dt))
        (dataNodes lex.toList)
      rw [dataOf_dataNodes, Option.bind_some] at read
      have attrs : readLiteralXml directions lex (literalAttributes (.datatyped lex dt)) =
          some (.datatyped lex dt) := by
        have other : "datatype".toList ≠ "xml:lang".toList := by decide
        unfold literalAttributes readLiteralXml
        simp only [other, if_true, if_false, typed, String.ofList_toList, ordinary]
      rw [attrs] at read
      exact read
  | tripleTerm s p o ihS ihP ihO =>
      obtain ⟨levels, rfl⟩ := Nat.exists_eq_succ_of_ne_zero (Nat.ne_zero_of_lt depth)
      obtain ⟨-, validS, validP, validO⟩ := valid
      rw [TermView.depth] at depth
      have readS := ihS validS (show s.depth < levels by omega)
        fun some_ => declared (by simp [hasDirection, some_])
      have readP := ihP validP (show p.depth < levels by omega)
        fun some_ => declared (by simp [hasDirection, some_])
      have readO := ihO validO (show o.depth < levels by omega)
        fun some_ => declared (by simp [hasDirection, some_])
      have read := readTermXml_other directions levels (show "triple".toList ≠ "literal".toList by decide)
        [.element "subject".toList [] [termNode s], .element "predicate".toList [] [termNode p],
          .element "object".toList [] [termNode o]]
      rw [if_neg (by decide), if_neg (by decide), if_pos rfl] at read
      simp only [childrenOf_element, onlyOne, Option.bind_some, readS, readP, readO,
        Option.bind_eq_bind, Option.pure_def] at read
      exact read

theorem dataOf_only {children : List Node} {lex : String} (h : dataOf children = some lex)
    (only : ∀ child ∈ children, Node.Only (· ≠ '\r') child) : '\r' ∉ lex.toList := by
  unfold dataOf at h
  split at h
  · cases h
    simp
  · rename_i s
    cases h
    cases only _ (List.mem_cons_self ..) with
    | text all =>
        rw [String.toList_ofList]
        exact fun mem => all _ mem rfl
  · cases h

theorem only_childrenOf {name : String} {n : Node} {children : List Node}
    (h : childrenOf name n = some children) (only : Node.Only (· ≠ '\r') n) :
    ∀ child ∈ children, Node.Only (· ≠ '\r') child := by
  cases only with
  | text all => cases h
  | element only =>
      rw [childrenOf] at h
      split at h
      · cases h
        exact only
      · cases h

theorem mem_onlyOne {α : Type} {l : List α} {a : α} (h : onlyOne l = some a) : a ∈ l := by
  unfold onlyOne at h
  split at h
  · cases h
    exact List.mem_cons_self ..
  · cases h

theorem not_mem_typed {c : Char} {lex : String} {dt : String} (inLex : c ∉ lex.toList)
    (valid : (typed lex dt).Valid) (control : c.toNat ≤ 0x20) : c ∉ chars (typed lex dt) := by
  unfold typed at valid ⊢
  split
  · exact inLex
  · rename_i ordinary
    rw [if_neg ordinary] at valid
    rw [chars, List.mem_append, not_or]
    exact ⟨fun mem => Nat.not_lt.mpr control (iri_chars valid.1 c mem), inLex⟩

theorem return_not_mem_literal {directions : Bool} {lex : String} {attrs : List (Text × Text)}
    {v : TermView} (h : readLiteralXml directions lex attrs = some v) (inLex : '\r' ∉ lex.toList)
    (valid : v.Valid) : '\r' ∉ chars v := by
  have tagged : ∀ tag dir, v = .lang lex tag dir → '\r' ∉ chars v := by
    rintro tag dir rfl
    rw [chars, List.mem_append, not_or]
    exact ⟨fun mem => absurd (langTag_chars valid _ mem) (by decide), inLex⟩
  unfold readLiteralXml at h
  split at h
  · cases h
    exact inLex
  · split at h
    · exact tagged _ none (Option.some.inj h).symm
    · split at h
      · have same := (Option.some.inj h).symm
        rw [same] at valid ⊢
        exact not_mem_typed inLex valid (by decide)
      · cases h
  · split at h
    · obtain ⟨dir, -, same⟩ := Option.map_eq_some_iff.mp h
      exact tagged _ (some dir) same.symm
    · cases h
  · cases h

/-- By induction on the levels: no carriage return comes out of a tree without one. -/
theorem return_not_mem {directions : Bool} {levels : Nat} {n : Node} {v : TermView}
    (h : readTermXml directions levels n = some v) (only : Node.Only (· ≠ '\r') n)
    (valid : v.Valid) : '\r' ∉ chars v := by
  induction levels generalizing n v with
  | zero => cases n <;> cases h
  | succ levels ih =>
      cases only with
      | text all => cases h
      | @element name attrs children only =>
          by_cases literal : name = "literal".toList
          · subst literal
            rw [readTermXml_literal] at h
            obtain ⟨lex, read, h⟩ := Option.bind_eq_some_iff.mp h
            exact return_not_mem_literal h (dataOf_only read only) valid
          · by_cases bare : attrs = []
            · subst bare
              rw [readTermXml_other directions levels literal] at h
              split at h
              · obtain ⟨i, read, rfl⟩ := Option.map_eq_some_iff.mp h
                exact dataOf_only read only
              · split at h
                · obtain ⟨i, read, rfl⟩ := Option.map_eq_some_iff.mp h
                  exact dataOf_only read only
                · split at h
                  · split at h
                    · rename_i s p o
                      simp only [Option.bind_eq_bind, Option.bind_eq_some_iff, Option.pure_def,
                        Option.some.injEq] at h
                      obtain ⟨vs, ⟨ns, ⟨cs, isS, oneS⟩, readS⟩, vp, ⟨np, ⟨cp, isP, oneP⟩, readP⟩, vo,
                        ⟨no, ⟨co, isO, oneO⟩, readO⟩, rfl⟩ := h
                      obtain ⟨-, validS, validP, validO⟩ := valid
                      have onlyS := only_childrenOf isS (only s (by simp)) ns (mem_onlyOne oneS)
                      have onlyP := only_childrenOf isP (only p (by simp)) np (mem_onlyOne oneP)
                      have onlyO := only_childrenOf isO (only o (by simp)) no (mem_onlyOne oneO)
                      simp only [chars, List.mem_append, not_or]
                      exact ⟨⟨ih readS onlyS validS, ih readP onlyP validP⟩, ih readO onlyO validO⟩
                    · cases h
                  · cases h
            · have refused : readTermXml directions (levels + 1) (.element name attrs children) =
                  none := (if_neg literal).trans (if_pos bare)
              rw [refused] at h
              cases h

/-! ## Tables -/

/-- The node of a bound cell. -/
def nodeOf (bytes : Bytes) : Node := ((termOf bytes).map termNode).getD (.text [])

def bindingNode (b : String × Node) : Node :=
  .element "binding".toList [("name".toList, b.1.toList)] [b.2]

def resultNode (vars : List String) (row : List (Option Bytes)) : Node :=
  .element "result".toList [] ((bindings nodeOf vars row).map bindingNode)

def variableNode (v : String) : Node := .element "variable".toList [("name".toList, v.toList)] []

def rootAttributes (directional : Bool) : List (Text × Text) :=
  ("xmlns".toList, sparqlNamespace) ::
    if directional then [("xmlns:its".toList, itsNamespace), ("its:version".toList, "2.0".toList)]
    else []

/-- Whether the document declares the namespace of the directions. -/
def directional (T : Table) : Bool :=
  T.rows.flatten.any fun cell => cell.elim false termHasDirection

def rootNode (T : Table) : Node :=
  .element "sparql".toList (rootAttributes (directional T))
    [.element "head".toList [] (T.vars.map variableNode),
      .element "results".toList [] (T.rows.map (resultNode T.vars))]

theorem elements_flatMap {α : Type} {spelled : α → Text} {node : α → Node} {l : List α}
    (each : ∀ a ∈ l, Elements (spelled a) [node a]) :
    Elements (l.flatMap spelled) (l.map node) := by
  induction l with
  | nil => exact .nil
  | cons a l ih =>
      rw [List.flatMap_cons, List.map_cons]
      exact (each a (List.mem_cons_self ..)).append
        (ih fun a mem => each a (List.mem_cons_of_mem _ mem))

theorem varName_above {v : String} (named : isVarName v = true) : ∀ c ∈ v.toList, 0x20 < c.toNat :=
  fun c mem => Nat.lt_of_lt_of_le (by decide) (varName_chars named c mem).1

theorem elements_variable {v : String} (named : isVarName v = true) :
    Elements (variableXml v) [variableNode v] := by
  have attrs := attributes_escaped (show isName "name".toList = true by decide)
    (varName_above named) .nil
  have spelled := Elements.single ⟨show isName "variable".toList = true by decide, attrs, by simp⟩ .nil
  have opens : "<variable name=\"".toList =
      '<' :: ("variable".toList ++ ' ' :: ("name".toList ++ ['=', '"'])) := by decide
  have closes : "\"/>".toList = ['"', '/', '>'] := by decide
  have shape : variableXml v = '<' :: ("variable".toList ++
      ' ' :: ("name".toList ++ '=' :: '"' :: (xmlEscape v.toList ++ '"' :: [])) ++ '/' :: '>' :: []) := by
    unfold variableXml
    rw [opens, closes]
    simp only [List.append_assoc, List.cons_append, List.nil_append]
  rw [shape]
  exact spelled

theorem termXml_of_termOf {bytes : Bytes} {v : TermView} (h : termOf bytes = some v) :
    termXml bytes = termRefXml v := by
  simp only [termXml, h]

/-- The binding of a cell, when it is bound. -/
theorem elements_binding {T : Table} {row : List (Option Bytes)} (mem : row ∈ T.rows)
    {cell : String × Option Bytes} (inZip : cell ∈ T.vars.zip row) :
    Elements (bindingXml cell)
      ((cell.2.map fun bytes => bindingNode (cell.1, nodeOf bytes)).toList) := by
  obtain ⟨v, held⟩ := cell
  obtain ⟨inVars, inRow⟩ := List.of_mem_zip inZip
  cases held with
  | none => exact .nil
  | some bytes =>
      obtain ⟨t, view, bound⟩ := T.bound mem inRow
      have attrs := attributes_escaped (show isName "name".toList = true by decide)
        (varName_above (T.named v inVars)) .nil
      have node : nodeOf bytes = termNode view := by rw [nodeOf, bound.termed]; rfl
      have spelled := elements_children
        ⟨show isName "binding".toList = true by decide, attrs, by simp⟩ (elements_term bound.valid)
      have opens : "<binding name=\"".toList =
          '<' :: ("binding".toList ++ ' ' :: ("name".toList ++ ['=', '"'])) := by decide
      have quote : "\">".toList = ['"', '>'] := by decide
      have closes : "</binding>".toList = '<' :: '/' :: ("binding".toList ++ ['>']) := by decide
      have shape : bindingXml (v, some bytes) = '<' :: ("binding".toList ++
          ' ' :: ("name".toList ++ '=' :: '"' :: (xmlEscape v.toList ++ '"' :: [])) ++ '>' ::
          (termRefXml view ++ '<' :: '/' :: ("binding".toList ++ ['>']))) := by
        unfold bindingXml
        simp only [opens, quote, closes, termXml_of_termOf bound.termed, List.append_assoc,
          List.cons_append, List.nil_append]
      rw [shape, Option.map_some, Option.toList_some, node]
      exact spelled

theorem elements_filterMap {α : Type} {spelled : α → Text} {node : α → Option Node} {l : List α}
    (each : ∀ a ∈ l, Elements (spelled a) (node a).toList) :
    Elements (l.flatMap spelled) (l.filterMap node) := by
  induction l with
  | nil => exact .nil
  | cons a l ih =>
      have rest := ih fun a mem => each a (List.mem_cons_of_mem _ mem)
      have whole := (each a (List.mem_cons_self ..)).append rest
      rw [List.flatMap_cons, List.filterMap_cons]
      cases here : node a with
      | none =>
          rw [here] at whole
          exact whole
      | some n =>
          rw [here] at whole
          exact whole

theorem elements_row {T : Table} {row : List (Option Bytes)} (mem : row ∈ T.rows) :
    Elements (rowXml T.vars row) [resultNode T.vars row] := by
  have children : (bindings nodeOf T.vars row).map bindingNode = (T.vars.zip row).filterMap
      fun cell => cell.2.map fun bytes => bindingNode (cell.1, nodeOf bytes) := by
    simp only [bindings, List.map_filterMap, Option.map_map, Function.comp_def]
  have inner := elements_filterMap fun cell inZip => @elements_binding T row mem cell inZip
  have spelled := elements_children (tag_plain (show isName "result".toList = true by decide)) inner
  have opens : "<result>".toList = '<' :: ("result".toList ++ ['>']) := by decide
  have closes : "</result>".toList = '<' :: '/' :: ("result".toList ++ ['>']) := by decide
  have shape : rowXml T.vars row = '<' :: ("result".toList ++ [] ++ '>' ::
      ((T.vars.zip row).flatMap bindingXml ++ '<' :: '/' :: ("result".toList ++ ['>']))) := by
    unfold rowXml
    rw [opens, closes]
    simp only [List.append_assoc, List.cons_append, List.nil_append]
  rw [shape, resultNode, children]
  exact spelled

/-- The attributes of the root as they are spelled. -/
def rootText (directional : Bool) : Text :=
  " xmlns=\"http://www.w3.org/2005/sparql-results#\"".toList ++
    if directional then
      " xmlns:its=\"http://www.w3.org/2005/11/its\" its:version=\"2.0\"".toList else []

theorem attributes_root (directional : Bool) :
    Attributes (rootText directional) (rootAttributes directional) := by
  have namespace_ : ∀ {a : Text} {attrs : List (Text × Text)}, Attributes a attrs →
      Attributes (' ' :: ("xmlns".toList ++ '=' :: '"' :: (sparqlNamespace ++ '"' :: a)))
        (("xmlns".toList, sparqlNamespace) :: attrs) := fun rest =>
    .cons (by decide) (by decide) (by decide) rest
  have opens : " xmlns=\"http://www.w3.org/2005/sparql-results#\"".toList =
      ' ' :: ("xmlns".toList ++ '=' :: '"' :: (sparqlNamespace ++ ['"'])) := by decide
  cases directional with
  | false =>
      have spelled := namespace_ .nil
      have shape : rootText false =
          ' ' :: ("xmlns".toList ++ '=' :: '"' :: (sparqlNamespace ++ '"' :: [])) := by
        rw [← opens]
        exact List.append_nil _
      rw [shape]
      exact spelled
  | true =>
      have version : Attributes (' ' :: ("its:version".toList ++ '=' :: '"' :: ("2.0".toList ++ '"' :: [])))
          [("its:version".toList, "2.0".toList)] := .cons (by decide) (by decide) (by decide) .nil
      have its : Attributes (' ' :: ("xmlns:its".toList ++ '=' :: '"' :: (itsNamespace ++ '"' ::
          (' ' :: ("its:version".toList ++ '=' :: '"' :: ("2.0".toList ++ '"' :: []))))))
          (("xmlns:its".toList, itsNamespace) :: [("its:version".toList, "2.0".toList)]) :=
        .cons (by decide) (by decide) (by decide) version
      have spelled := namespace_ its
      have more : " xmlns:its=\"http://www.w3.org/2005/11/its\" its:version=\"2.0\"".toList =
          ' ' :: ("xmlns:its".toList ++ '=' :: '"' :: (itsNamespace ++ '"' ::
            (' ' :: ("its:version".toList ++ '=' :: '"' :: ("2.0".toList ++ '"' :: []))))) := by decide
      have shape : rootText true = ' ' :: ("xmlns".toList ++ '=' :: '"' :: (sparqlNamespace ++ '"' ::
          (' ' :: ("xmlns:its".toList ++ '=' :: '"' :: (itsNamespace ++ '"' ::
            (' ' :: ("its:version".toList ++ '=' :: '"' :: ("2.0".toList ++ '"' :: [])))))))) := by
        rw [← more]
        have unfolded : rootText true = " xmlns=\"http://www.w3.org/2005/sparql-results#\"".toList ++
            " xmlns:its=\"http://www.w3.org/2005/11/its\" its:version=\"2.0\"".toList := rfl
        rw [unfolded, opens]
        simp only [List.append_assoc, List.cons_append, List.nil_append]
      rw [shape]
      exact spelled

/-- The root element as it is spelled. -/
def bodyText (T : Table) : Text :=
  '<' :: ("sparql".toList ++ rootText (directional T) ++ '>' ::
    ("<head>".toList ++ T.vars.flatMap variableXml ++ "</head><results>".toList ++
      T.rows.flatMap (rowXml T.vars) ++ "</results>".toList ++
      '<' :: '/' :: ("sparql".toList ++ ['>'])))

theorem toXml_eq (T : Table) : toXml T.results = some (declaration ++ '\n' :: bodyText T) := by
  have opens : "<?xml version=\"1.0\"?>\n<sparql xmlns=\"http://www.w3.org/2005/sparql-results#\"".toList =
      declaration ++ '\n' :: '<' :: ("sparql".toList ++
        " xmlns=\"http://www.w3.org/2005/sparql-results#\"".toList) := by decide
  have close : ">".toList = ['>'] := by decide
  have closes : "</sparql>".toList = '<' :: '/' :: ("sparql".toList ++ ['>']) := by decide
  unfold toXml documentXml bodyText rootText directional Table.results
  simp only [opens, close, closes, List.append_assoc, List.cons_append, List.nil_append]

theorem elements_root (T : Table) : Elements (bodyText T) [rootNode T] := by
  have vars := elements_children (tag_plain (show isName "head".toList = true by decide))
    (elements_flatMap fun v mem => elements_variable (T.named v mem))
  have rows := elements_children (tag_plain (show isName "results".toList = true by decide))
    (elements_flatMap fun row mem => @elements_row T row mem)
  have distinct : ((rootAttributes (directional T)).map Prod.fst).Nodup := by
    cases directional T <;> decide
  have spelled := elements_children
    ⟨show isName "sparql".toList = true by decide, attributes_root (directional T), distinct⟩
    (vars.append rows)
  have opens : "<head>".toList = '<' :: ("head".toList ++ ['>']) := by decide
  have between : "</head><results>".toList =
      '<' :: '/' :: ("head".toList ++ '>' :: '<' :: ("results".toList ++ ['>'])) := by decide
  have closes : "</results>".toList = '<' :: '/' :: ("results".toList ++ ['>']) := by decide
  unfold bodyText
  rw [opens, between, closes]
  simp only [List.append_assoc, List.cons_append, List.nil_append] at spelled ⊢
  exact spelled

/-! ## Reading a table -/

/-- Every character of the terms passes the reader as it is. -/
def XmlPlain (T : Table) : Prop :=
  ∀ terms ∈ T.solutions.rows, ∀ v, some v ∈ terms → ∀ c ∈ chars v, Legal c

theorem legal_variableXml {v : String} (named : isVarName v = true) :
    ∀ c ∈ variableXml v, Legal c := by
  have legal : ∀ c ∈ v.toList, Legal c := fun c mem =>
    ⟨(varName_chars named c mem).2, ne_of_lt_toNat (Nat.lt_trans (by decide) (varName_above named c mem))⟩
  unfold variableXml
  simp only [List.forall_mem_append]
  exact ⟨⟨legal_marks (by decide), legal_xmlEscape legal⟩, legal_marks (by decide)⟩

theorem legal_bindingXml {T : Table} (plain : XmlPlain T) {row : List (Option Bytes)}
    (mem : row ∈ T.rows) {cell : String × Option Bytes} (inZip : cell ∈ T.vars.zip row) :
    ∀ c ∈ bindingXml cell, Legal c := by
  obtain ⟨v, held⟩ := cell
  obtain ⟨inVars, inRow⟩ := List.of_mem_zip inZip
  cases held with
  | none => exact nofun
  | some bytes =>
      obtain ⟨t, view, bound⟩ := T.bound mem inRow
      obtain ⟨terms, inTerms, here⟩ := Table.mem_solutions mem inRow bound.termed
      have term := legal_termRefXml bound.valid (plain terms inTerms view here)
      have name : ∀ c ∈ v.toList, Legal c := fun c mem =>
        ⟨(varName_chars (T.named v inVars) c mem).2,
          ne_of_lt_toNat (Nat.lt_trans (by decide) (varName_above (T.named v inVars) c mem))⟩
      unfold bindingXml
      simp only [termXml_of_termOf bound.termed, List.forall_mem_append]
      exact ⟨⟨⟨⟨legal_marks (by decide), legal_xmlEscape name⟩, legal_marks (by decide)⟩, term⟩,
        legal_marks (by decide)⟩

theorem legal_flatMap {α : Type} {f : α → Text} {l : List α} (each : ∀ a ∈ l, ∀ c ∈ f a, Legal c) :
    ∀ c ∈ l.flatMap f, Legal c := by
  intro c mem
  obtain ⟨a, inList, here⟩ := List.mem_flatMap.mp mem
  exact each a inList c here

theorem legal_bodyText {T : Table} (plain : XmlPlain T) : ∀ c ∈ bodyText T, Legal c := by
  have vars : ∀ c ∈ T.vars.flatMap variableXml, Legal c :=
    legal_flatMap fun v mem => legal_variableXml (T.named v mem)
  have rows : ∀ c ∈ T.rows.flatMap (rowXml T.vars), Legal c := by
    refine legal_flatMap fun row mem => ?_
    unfold rowXml
    simp only [List.forall_mem_append]
    exact ⟨⟨legal_marks (by decide), legal_flatMap fun cell inZip => legal_bindingXml plain mem inZip⟩,
      legal_marks (by decide)⟩
  have root : ∀ c ∈ rootText (directional T), Legal c :=
    legal_marks (by cases directional T <;> decide)
  have single : ∀ {d : Char}, isMark d = true → ∀ {s : Text}, (∀ c ∈ s, Legal c) →
      ∀ c ∈ d :: s, Legal c := by
    intro d mark s rest
    refine List.forall_mem_cons.mpr ⟨legal_marks (s := [d]) ?_ d (List.mem_singleton_self d), rest⟩
    simpa using mark
  unfold bodyText
  refine single (by decide) (List.forall_mem_append.mpr
    ⟨List.forall_mem_append.mpr ⟨legal_marks (by decide), root⟩, single (by decide) ?_⟩)
  simp only [List.forall_mem_append]
  exact ⟨⟨⟨⟨⟨legal_marks (by decide), vars⟩, legal_marks (by decide)⟩, rows⟩,
    legal_marks (by decide)⟩, legal_marks (by decide)⟩

/-- Characters of the terms stand in the document. -/
theorem mem_bodyText {T : Table} {terms : List (Option TermView)} (inTerms : terms ∈ T.solutions.rows)
    {v : TermView} (cell : some v ∈ terms) {c : Char} (plain : c ∉ ['&', '<', '>', '"'])
    (h : c ∈ chars v) : c ∈ bodyText T := by
  obtain ⟨row, inRows, bytes, inRow, termed⟩ := Table.exists_cell inTerms cell
  obtain ⟨t, v', bound⟩ := T.bound inRows inRow
  cases termed.symm.trans bound.termed
  obtain ⟨i, lt, here⟩ := List.getElem_of_mem inRow
  have width := T.width row inRows
  have inZip : (T.vars[i], some bytes) ∈ T.vars.zip row := by
    have inside : i < (T.vars.zip row).length := by
      rw [List.length_zip]
      omega
    rw [← here, ← @List.getElem_zip _ _ _ _ _ inside]
    exact List.getElem_mem inside
  have inBinding : c ∈ bindingXml (T.vars[i], some bytes) := by
    unfold bindingXml
    simp only [termXml_of_termOf bound.termed]
    exact List.mem_append_left _ (List.mem_append_right _ (mem_termRefXml plain bound.valid h))
  have inRowText : c ∈ rowXml T.vars row := by
    unfold rowXml
    exact List.mem_append_left _ (List.mem_append_right _
      (List.mem_flatMap.mpr ⟨_, inZip, inBinding⟩))
  have inRowsText : c ∈ T.rows.flatMap (rowXml T.vars) := List.mem_flatMap.mpr ⟨row, inRows, inRowText⟩
  unfold bodyText
  refine List.mem_cons_of_mem _ (List.mem_append_right _ (List.mem_cons_of_mem _ ?_))
  exact List.mem_append_left _ (List.mem_append_left _ (List.mem_append_right _ inRowsText))

theorem namedChildren_element (element v : String) (children : List Node) :
    namedChildren element (.element element.toList [("name".toList, v.toList)] children) =
      some (v, children) := by
  rw [namedChildren, if_pos ⟨rfl, rfl⟩, String.ofList_toList]

/-- The directions of a cell are declared. -/
theorem declared {T : Table} {row : List (Option Bytes)} (mem : row ∈ T.rows) {bytes : Bytes}
    (inRow : some bytes ∈ row) {v : TermView} (termed : termOf bytes = some v)
    (h : hasDirection v = true) : directional T = true := by
  refine List.any_eq_true.mpr ⟨some bytes, List.mem_flatten.mpr ⟨row, mem, inRow⟩, ?_⟩
  rw [Option.elim_some, termHasDirection, termed]
  exact h

theorem readBinding_bindingNode {T : Table} {row : List (Option Bytes)} (mem : row ∈ T.rows)
    {v : String} {bytes : Bytes} (inRow : some bytes ∈ row) {view : TermView}
    (termed : termOf bytes = some view) :
    readBinding (directional T) (bindingNode (v, nodeOf bytes)) = some (v, view) := by
  obtain ⟨t, view', bound⟩ := T.bound mem inRow
  cases termed.symm.trans bound.termed
  have node : nodeOf bytes = termNode view := by rw [nodeOf, termed]; rfl
  have read := readTermXml_termNode bound.valid bound.depth fun h => declared mem inRow termed h
  unfold readBinding bindingNode
  rw [namedChildren_element, node]
  simp only [Option.bind_eq_bind, Option.bind_some, onlyOne, read, Option.pure_def]

/-- The term of a bound cell. -/
def viewOf (bytes : Bytes) : TermView := (termOf bytes).getD (.simple "")

theorem readResult_resultNode {T : Table} {row : List (Option Bytes)} (mem : row ∈ T.rows) :
    readResult (directional T) T.vars (resultNode T.vars row) =
      some (row.map fun cell => cell.bind termOf) := by
  have read : ((bindings nodeOf T.vars row).map bindingNode).mapM (readBinding (directional T)) =
      some (bindings viewOf T.vars row) := by
    have spelled : ∀ cells : List (String × Option Bytes), (∀ cell ∈ cells, cell ∈ T.vars.zip row) →
        ((cells.filterMap fun cell => cell.2.map fun bytes => (cell.1, nodeOf bytes)).map
          bindingNode).mapM (readBinding (directional T)) =
        some (cells.filterMap fun cell => cell.2.map fun bytes => (cell.1, viewOf bytes)) := by
      intro cells
      induction cells with
      | nil => exact fun _ => rfl
      | cons cell cells ih =>
          intro inZip
          have rest := ih fun cell mem => inZip cell (List.mem_cons_of_mem _ mem)
          obtain ⟨v, held⟩ := cell
          cases held with
          | none => exact rest
          | some bytes =>
              have inRow := (List.of_mem_zip (inZip _ (List.mem_cons_self ..))).2
              obtain ⟨t, view, bound⟩ := T.bound mem inRow
              have here : viewOf bytes = view := by rw [viewOf, bound.termed]; rfl
              have read := readBinding_bindingNode mem (v := v) inRow bound.termed
              simp only [List.filterMap_cons, Option.map_some, List.map_cons, List.mapM_cons, rest,
                read, here, Option.bind_eq_bind, Option.bind_some, Option.pure_def]
    exact spelled _ fun _ inZip => inZip
  have known : ∀ b ∈ bindings viewOf T.vars row, b.1 ∈ T.vars := by
    intro b inList
    obtain ⟨bytes, inZip, -⟩ := mem_bindings.mp inList
    exact (List.of_mem_zip inZip).1
  have cells : (row.map fun cell => cell.map viewOf) = row.map fun cell => cell.bind termOf := by
    refine List.map_congr_left fun cell inRow => ?_
    cases cell with
    | none => rfl
    | some bytes =>
        obtain ⟨t, view, bound⟩ := T.bound mem inRow
        simp only [Option.map_some, Option.bind_some, viewOf, bound.termed, Option.getD_some]
  have held := T.lookup_bindings mem viewOf (l := bindings viewOf T.vars row) fun _ => Iff.rfl
  unfold readResult resultNode
  rw [childrenOf_element]
  simp only [Option.bind_eq_bind, Option.bind_some, read]
  rw [if_pos known, held, cells]

theorem readXml_toXml {T : Table} (plain : XmlPlain T) :
    (toXml T.results).bind readXml = some T.solutions := by
  have read := read_spelled (elements_root T) fun c mem => legal_bodyText plain c mem
  have vars : (T.vars.map variableNode).mapM readVariable = some T.vars := by
    have each : ∀ v ∈ T.vars, (readVariable ∘ variableNode) v = some v := by
      intro v _
      unfold Function.comp readVariable variableNode
      rw [namedChildren_element]
      rfl
    rw [List.mapM_map, mapM_some each, List.map_id']
  have rows : (T.rows.map (resultNode T.vars)).mapM (readResult (directional T) T.vars) =
      some T.solutions.rows := by
    have each : ∀ row ∈ T.rows, (readResult (directional T) T.vars ∘ resultNode T.vars) row =
        some (row.map fun cell => cell.bind termOf) := fun row mem => readResult_resultNode mem
    rw [List.mapM_map, mapM_some each]
    rfl
  have namespace_ : (rootAttributes (directional T)).lookup "xmlns".toList = some sparqlNamespace := by
    cases directional T <;> decide
  have directions : decide ((rootAttributes (directional T)).lookup "xmlns:its".toList =
      some itsNamespace) = directional T := by
    cases directional T <;> decide
  rw [toXml_eq, Option.bind_some, readXml, read]
  simp only [namespace_, and_self, if_true, directions, childrenOf_element, Option.bind_some, vars,
    rows, Option.bind_eq_bind, Option.pure_def]
  rfl

/-- Whatever a document is read as, no carriage return is in the valid terms. -/
theorem return_not_mem_readXml {text : Text} {s : Solutions} (h : readXml text = some s)
    {terms : List (Option TermView)} (mem : terms ∈ s.rows) {v : TermView} (cell : some v ∈ terms)
    (valid : v.Valid) : '\r' ∉ chars v := by
  unfold readXml at h
  split at h
  · rename_i name attrs head results read
    have only := read_only read
    split at h
    · simp only [Option.bind_eq_bind, Option.bind_eq_some_iff, Option.pure_def, Option.some.injEq] at h
      obtain ⟨vars, -, rows, ⟨nodes, isResults, read⟩, rfl⟩ := h
      cases only with
      | element only =>
          have onlyRows := only_childrenOf isResults (only results (by simp))
          obtain ⟨node, inNodes, readRow⟩ := exists_mapM read mem
          simp only [readResult, Option.bind_eq_bind, Option.bind_eq_some_iff] at readRow
          obtain ⟨children, isRow, bs, readBs, same⟩ := readRow
          have onlyRow := only_childrenOf isRow (onlyRows node inNodes)
          split at same
          · cases same
            obtain ⟨name, -, held⟩ := List.mem_map.mp cell
            obtain ⟨l, l', split_, -⟩ := List.lookup_eq_some_iff.mp held
            have inBs : (name, v) ∈ bs := by
              rw [split_]
              simp
            obtain ⟨child, inChildren, readChild⟩ := exists_mapM readBs inBs
            simp only [readBinding, Option.bind_eq_bind, Option.bind_eq_some_iff, Option.pure_def,
              Option.some.injEq, Prod.mk.injEq] at readChild
            obtain ⟨named, isNamed, inner, one, v', readTerm, -, rfl⟩ := readChild
            have onlyChild := onlyRow child inChildren
            have onlyInner : Node.Only (· ≠ '\r') inner := by
              unfold namedChildren at isNamed
              split at isNamed
              · split at isNamed
                · cases isNamed
                  cases onlyChild with
                  | element only => exact only inner (mem_onlyOne one)
                · cases isNamed
              · cases isNamed
            exact return_not_mem readTerm onlyInner valid
          · cases same
    · cases h
  · cases h

/-- The document of a table reads back only when every character passes. -/
theorem xmlPlain_of_readXml {T : Table} (h : (toXml T.results).bind readXml = some T.solutions) :
    XmlPlain T := by
  intro terms inTerms v cell c mem
  rw [toXml_eq, Option.bind_some] at h
  have legal : isChar c = true := by
    by_contra illegal
    rw [Bool.not_eq_true] at illegal
    have plain : c ∉ ['&', '<', '>', '"'] := by
      intro escaped
      have fixed : ∀ c ∈ ['&', '<', '>', '"'], isChar c = true := forall_of_all (by decide)
      rw [fixed c escaped] at illegal
      cases illegal
    have inText : c ∈ declaration ++ '\n' :: bodyText T :=
      List.mem_append_right _ (List.mem_cons_of_mem _ (mem_bodyText inTerms cell plain mem))
    rw [readXml, read_illegal inText illegal] at h
    cases h
  refine ⟨legal, ?_⟩
  rintro rfl
  obtain ⟨row, inRows, bytes, inRow, termed⟩ := Table.exists_cell inTerms cell
  obtain ⟨t, v', bound⟩ := T.bound inRows inRow
  cases termed.symm.trans bound.termed
  exact return_not_mem_readXml h inTerms cell bound.valid mem

/-- A table with the document of a plain one is plain. -/
theorem xmlPlain_of_same {T T' : Table} (same : toXml T'.results = toXml T.results)
    (plain : XmlPlain T) : XmlPlain T' := by
  rw [toXml_eq, toXml_eq] at same
  have body : bodyText T' = bodyText T :=
    (List.cons.inj (List.append_cancel_left (Option.some.inj same))).2
  intro terms inTerms v cell c mem
  by_cases escaped : c ∈ ['&', '<', '>', '"']
  · have fixed : ['&', '<', '>', '"'].all isMark = true := by decide
    exact legal_marks fixed c escaped
  · have inText := mem_bodyText inTerms cell escaped mem
    rw [body] at inText
    exact legal_bodyText plain c inText

end Graphy.Protocol
