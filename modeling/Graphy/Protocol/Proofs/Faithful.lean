import Graphy.Protocol.Proofs.Csv
import Graphy.Protocol.Proofs.Json
import Graphy.Protocol.Proofs.Tsv
import Graphy.Protocol.Proofs.Xml

/-!
# When results are faithful

A table comes back from every format exactly when its terms have no tab, no carriage return
and no character that XML forbids.  CSV and JSON need no such condition.
-/

namespace Graphy.Protocol

open Graphy.Concise Graphy.Turtle

namespace Table

theorem tabless_of_plain {T : Table} (plain : T.Plain) : Tabless T := by
  intro row mem cell inRow tab
  obtain ⟨-, terms, inTerms, v, here, inside⟩ := control_tsvCell mem inRow (by decide) tab
  exact (plain terms inTerms v here '\t' inside).2.1 rfl

theorem xmlPlain_of_plain {T : Table} (plain : T.Plain) : XmlPlain T :=
  fun terms inTerms v cell c mem =>
    have h := plain terms inTerms v cell c mem
    ⟨h.1, h.2.2⟩

/-- The document of a plain table belongs to no other table. -/
theorem unlike_of_plain {T T' : Table} (plain : T.Plain)
    (same : toTsv T'.results = toTsv T.results ∨ toXml T'.results = toXml T.results ∨
      toJson T'.results = toJson T.results) : T'.solutions = T.solutions := by
  rcases same with same | same | same
  · have read := readTsv_toTsv (tabless_of_plain plain)
    rw [← same] at read
    have read' := readTsv_toTsv (tabless_of_readTsv read)
    exact Option.some.inj (read'.symm.trans read)
  · have read := readXml_toXml (xmlPlain_of_plain plain)
    have read' := readXml_toXml (xmlPlain_of_same same (xmlPlain_of_plain plain))
    rw [same] at read'
    exact Option.some.inj (read'.symm.trans read)
  · have read := readJson_toJson T
    have read' := readJson_toJson T'
    rw [same] at read'
    exact Option.some.inj (read'.symm.trans read)

theorem plain_of_reads {T : Table} (tsv : (toTsv T.results).bind readTsv = some T.solutions)
    (xml : (toXml T.results).bind readXml = some T.solutions) : T.Plain := by
  intro terms inTerms v cell c mem
  have legal := xmlPlain_of_readXml xml terms inTerms v cell c mem
  refine ⟨legal.1, ?_, legal.2⟩
  rintro rfl
  obtain ⟨row, inRows, bytes, inRow, termed⟩ := exists_cell inTerms cell
  obtain ⟨t, v', bound⟩ := T.bound inRows inRow
  cases termed.symm.trans bound.termed
  have tab : '\t' ∈ tsvCell (some bytes) := by
    have text : tsvCell (some bytes) = termText v := termNt_of_termOf termed
    rw [text]
    exact mem_termText bound.valid (by decide) mem
  exact tabless_of_readTsv tsv row inRows (some bytes) inRow tab

theorem faithful_iff (T : Table) : T.Faithful ↔ T.Plain := by
  constructor
  · intro faithful
    exact plain_of_reads faithful.tsv faithful.xml
  · intro plain
    exact {
      tsv := readTsv_toTsv (tabless_of_plain plain)
      csv := readCsv_toCsv T
      xml := readXml_toXml (xmlPlain_of_plain plain)
      json := readJson_toJson T
      unlike := fun T' same => unlike_of_plain plain same }

end Table

/-- One cell, a literal with a tab in it. -/
def tabTable : Table where
  vars := ["x"]
  rows := [[some (encodeSimple "a\tb")]]
  some_ := by simp
  named := by decide
  width := by simp
  accepted := by
    intro row mem bytes inRow
    rw [List.mem_singleton.mp mem, List.mem_singleton, Option.some.injEq] at inRow
    rw [inRow]
    exact ⟨_, decode_encodeSimple "a\tb"⟩
  projected := by
    intro row mem a inZip b inZip' _
    rw [List.mem_singleton.mp mem, List.zip_cons_cons, List.zip_nil_left, List.mem_singleton]
      at inZip inZip'
    rw [inZip, inZip']

theorem not_faithful_tabTable : ¬ tabTable.Faithful := by
  intro faithful
  have tab : '\t' ∈ tsvCell (some (encodeSimple "a\tb")) := by
    have termed : termOf (encodeSimple "a\tb") = some (.simple "a\tb") := by
      rw [termOf, decode_encodeSimple]
      rfl
    have text : tsvCell (some (encodeSimple "a\tb")) = termText (.simple "a\tb") :=
      termNt_of_termOf termed
    rw [text]
    exact mem_termText (show (TermView.simple "a\tb").Valid from trivial) (by decide) (by decide)
  exact tabless_of_readTsv faithful.tsv _ (List.mem_singleton_self _) _ (List.mem_singleton_self _) tab

end Graphy.Protocol
