import Graphy.Misc.WaveletMatrix
import Graphy.Store.Bt

/-!
# FoQ accessors of the compact profile

`wp` is a wavelet matrix over the predicates of SPO's (subject, predicate)
pairs and gives P-rooted access.  `xo`, `bo` and `po` are the object index: the
distinct object values, the marks of their runs, and the SPO ordinals sorted by
object.
-/

namespace Graphy

open BitVector

structure Foq where
  wp : WaveletMatrix
  xo : List Col
  bo : List Bool
  po : List Nat
deriving DecidableEq, Repr

namespace Foq

/-- Build from the SPO ordering and the (object, ordinal) pairs sorted by object. -/
def build (spo : Bt) (sortedObjOrdinals : List (Col × Nat)) (predWidth : Nat) : Foq where
  wp := WaveletMatrix.new (spo.sy.map Col.payload) predWidth
  xo := (runHeads Prod.fst none sortedObjOrdinals).map Prod.fst
  bo := runMarks Prod.fst none sortedObjOrdinals
  po := sortedObjOrdinals.map Prod.snd

/-- Number of distinct object values. -/
def nObjects (foq : Foq) : Nat := foq.xo.length

/-- Index of object value `o`, if present. -/
def locateObject (foq : Foq) (o : Col) : Option Nat := findIn foq.xo 0 foq.xo.length o

/-- `po` position range of object index `j`. -/
def objectRun (foq : Foq) (j : Nat) : Nat × Nat :=
  ((select1 foq.bo j).getD 0, (select1 foq.bo (j + 1)).getD foq.po.length)

end Foq

end Graphy
