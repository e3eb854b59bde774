import Mathlib.Algebra.Ring.Nat
import Mathlib.Data.List.Lex
import Mathlib.Data.Prod.Lex

/-!
# Terms and column values

A concise term is one byte string whose first byte is a type sigil; a triple
term is spelled by its three components.  A column value is a tagged
64-bit word: the tag in the upper four bits, the payload below it.  Plain
integer order over the words is tag first, then payload.
-/

namespace Graphy

abbrev Bytes := List UInt8

/-- Bytes are ordered by value, byte strings lexicographically. -/
instance uint8LinearOrder : LinearOrder UInt8 where
  le_refl := UInt8.le_refl
  le_trans _ _ _ := UInt8.le_trans
  le_antisymm _ _ := UInt8.le_antisymm
  le_total := UInt8.le_total
  lt_iff_le_not_ge a b := by
    rw [UInt8.not_le]
    exact ⟨fun h => ⟨UInt8.le_of_lt h, h⟩, And.right⟩
  toDecidableLE := inferInstance
  toDecidableEq := inferInstance
  toDecidableLT := inferInstance

/-- Kind of a plain term as its sigil tells it. -/
inductive TermKind where
  | iri
  | blank
  | literal
deriving DecidableEq, Repr

/-- Kind of a byte string that is no triple term: `>` opens an IRI, `_` a blank
node, every other sigil a literal. -/
def sigilKind : Bytes → TermKind
  | 0x3E :: _ => .iri
  | 0x5F :: _ => .blank
  | _ => .literal

/-- A term taken apart.  Subject and predicate of a triple term are plain terms, its
object nests. -/
inductive Term where
  | atom (bytes : Bytes)
  | tripleTerm (s p : Bytes) (o : Term)
deriving DecidableEq, Repr

/-- Term position, selecting the id space. -/
inductive TermPos where
  | subject
  | predicate
  | object
  | graph
deriving DecidableEq, Repr

/-- A column value: the tag bits and the payload of the 64-bit word. -/
structure Col where
  tag : Nat
  payload : Nat
deriving DecidableEq, Repr

namespace Col

/-- Dictionary position `n`. -/
def dict (n : Nat) : Col := ⟨0, n⟩

/-- Ordinal `n` of the triple-term table. -/
def tripleTerm (n : Nat) : Col := ⟨7, n⟩

/-- The 64-bit word. -/
def raw (c : Col) : Nat := c.tag * 2 ^ 60 + c.payload

def toPair (c : Col) : Nat ×ₗ Nat := toLex (c.tag, c.payload)

theorem toPair_injective : Function.Injective toPair := by
  intro a b h
  have pair : (a.tag, a.payload) = (b.tag, b.payload) := toLex.injective h
  cases a
  cases b
  simpa using pair

instance : LinearOrder Col := LinearOrder.lift' toPair toPair_injective

theorem lt_iff {a b : Col} :
    a < b ↔ a.tag < b.tag ∨ a.tag = b.tag ∧ a.payload < b.payload :=
  Prod.Lex.lt_iff

theorem lt_dict_iff {c : Col} {n : Nat} : c < dict n ↔ c.tag = 0 ∧ c.payload < n := by
  simp [lt_iff, dict]

theorem dict_le_iff {c : Col} {n : Nat} : dict n ≤ c ↔ 0 < c.tag ∨ n ≤ c.payload := by
  rw [← not_lt, lt_dict_iff]
  omega

@[simp] theorem dict_lt_dict {m n : Nat} : dict m < dict n ↔ m < n := by
  rw [lt_dict_iff]
  exact and_iff_right rfl

@[simp] theorem dict_le_dict {m n : Nat} : dict m ≤ dict n ↔ m ≤ n := by
  rw [← not_lt, dict_lt_dict, not_lt]

@[simp] theorem dict_inj {m n : Nat} : dict m = dict n ↔ m = n := by simp [dict]

@[simp] theorem dict_tag (n : Nat) : (dict n).tag = 0 := rfl

@[simp] theorem dict_payload (n : Nat) : (dict n).payload = n := rfl

@[simp] theorem tripleTerm_tag (n : Nat) : (tripleTerm n).tag = 7 := rfl

@[simp] theorem tripleTerm_payload (n : Nat) : (tripleTerm n).payload = n := rfl

theorem eq_dict_of_tag {c : Col} (h : c.tag = 0) : c = dict c.payload := by
  cases c
  simp_all [dict]

theorem eq_tripleTerm_of_tag {c : Col} (h : c.tag = 7) : c = tripleTerm c.payload := by
  cases c
  simp_all [tripleTerm]

end Col

/-- A quad of concise terms; `none` is the default graph. -/
structure QuadTerms where
  s : Bytes
  p : Bytes
  o : Bytes
  g : Option Bytes
deriving DecidableEq, Repr

/-- The IRI of a scheme alone, by the number of its letter. -/
def letterIri (n : UInt8) : Bytes := [0x3E, 0x60 + n, 0x3A]

/-- The quad of three such IRIs in the default graph. -/
def QuadTerms.ofLetters (s p o : UInt8) : QuadTerms := ⟨letterIri s, letterIri p, letterIri o, none⟩

/-- A triple of column values. -/
structure TripleKey where
  s : Col
  p : Col
  o : Col
deriving DecidableEq, Repr

/-- A quad of column values; the graph column is 0 for the default graph. -/
structure QuadKey where
  s : Col
  p : Col
  o : Col
  g : Col
deriving DecidableEq, Repr

end Graphy
