import Graphy.Misc.Emits
import Graphy.Turtle.Proofs.NQuads

/-!
# The line driver only pushes quads

Handling a token does not depend on the quads that are buffered: it pushes the same ones behind
them, whatever they are.
-/

namespace Graphy.Turtle.NxDriver

open Graphy.Comp

/-- The driver with other quads in its buffer. -/
def withQuads (d : NxDriver) (buf : QuadBuf) : NxDriver := { d with quads := buf }

/-- A piece of driving that only pushes quads. -/
def Pushes {α : Type} (m : Nx α) : Prop := Emits withQuads QuadBuf.push m

/-! ## Terms -/

theorem err_pushes {α : Type} (start : Position) (message : String) :
    Pushes (err start message : Nx α) := by
  unfold err errAt
  split
  · exact Emits.crash _
  · exact Emits.throws (fun _ => rfl) fun _ _ => rfl

theorem liftErr_pushes {α : Type} (start : Position) (r : Except String α) :
    Pushes (liftErr start r) := by
  cases r with
  | ok a => exact Emits.pure a
  | error message => exact err_pushes start message

theorem emitTerm_pushes (bytes : Bytes) : Pushes (emitTerm bytes) := by
  refine Emits.get (fun _ _ => rfl) fun d => ?_
  exact Emits.bind (Emits.update fun _ _ => rfl) fun _ => Emits.pure _

theorem bytesOf_pushes (h : H) : Pushes (bytesOf h) :=
  Emits.get (fun _ _ => rfl) fun _ => Emits.expect _ _

theorem emitBlank_pushes (surface : String) : Pushes (emitBlank surface) := by
  refine Emits.get (fun _ _ => rfl) fun d => ?_
  split
  · exact emitTerm_pushes _
  · exact Emits.bind (Emits.update fun _ _ => rfl) fun _ => emitTerm_pushes _

theorem emitIri_pushes (start : Position) (text : String) : Pushes (emitIri start text) := by
  refine Emits.get (fun _ _ => rfl) fun d => ?_
  exact Emits.bind (liftErr_pushes start _) fun _ => emitTerm_pushes _

theorem emitTyped_pushes (start : Position) (text : String) : Pushes (emitTyped start text) := by
  refine Emits.get (fun _ _ => rfl) fun d => ?_
  refine Emits.bind (liftErr_pushes start _) fun abs => ?_
  exact Emits.bind (liftErr_pushes start _) fun _ => emitTerm_pushes _

theorem emitTripleTerm_pushes (s p o : H) : Pushes (emitTripleTerm s p o) := by
  refine Emits.bind (bytesOf_pushes s) fun sb => ?_
  refine Emits.bind (bytesOf_pushes p) fun pb => ?_
  exact Emits.bind (bytesOf_pushes o) fun ob => emitTerm_pushes _

theorem nodeTerm_pushes (start : Position) (t : Token) : Pushes (nodeTerm start t) := by
  unfold nodeTerm
  split
  · exact Emits.bind (emitIri_pushes start _) fun _ => Emits.pure _
  · exact Emits.bind (emitBlank_pushes _) fun _ => Emits.pure _
  · exact Emits.pure _

theorem nodeOr_pushes (start : Position) (t : Token) (message : String) :
    Pushes (nodeOr start t message) := by
  refine Emits.bind (nodeTerm_pushes start t) fun h => ?_
  cases h with
  | some h => exact Emits.pure h
  | none => exact err_pushes start message

theorem iriOr_pushes (start : Position) (t : Token) (message : String) :
    Pushes (iriOr start t message) := by
  unfold iriOr
  split
  · exact emitIri_pushes start _
  · exact err_pushes start message

/-! ## Statements -/

theorem completeObject_pushes (h : H) : Pushes (completeObject h) :=
  Emits.update fun _ _ => rfl

theorem graphBytes_pushes (g : Option H) : Pushes (graphBytes g) := by
  cases g with
  | none => exact Emits.pure none
  | some h => exact Emits.bind (bytesOf_pushes h) fun _ => Emits.pure _

/-- The one place that pushes. -/
theorem emitStatement_pushes : Pushes emitStatement := by
  refine Emits.get (fun _ _ => rfl) fun d => ?_
  refine Emits.bind (Emits.expect _ _) fun s => ?_
  refine Emits.bind (Emits.expect _ _) fun p => ?_
  refine Emits.bind (Emits.expect _ _) fun o => ?_
  refine Emits.bind (graphBytes_pushes _) fun gb => ?_
  refine Emits.bind (bytesOf_pushes s) fun sb => ?_
  refine Emits.bind (bytesOf_pushes p) fun pb => ?_
  refine Emits.bind (bytesOf_pushes o) fun ob => ?_
  exact Emits.emit (fun _ => ⟨sb, pb, ob, gb, none⟩) fun _ _ => rfl

/-! ## Handlers -/

theorem openTripleTerm_pushes (start : Position) : Pushes (openTripleTerm start) := by
  refine Emits.get (fun _ _ => rfl) fun d => ?_
  split
  · exact err_pushes start _
  · split
    · exact err_pushes start _
    · exact Emits.update fun _ _ => rfl

theorem onObject_pushes (start : Position) (t : Token) : Pushes (onObject start t) := by
  unfold onObject
  split
  · unfold keepString
    split
    · exact err_pushes start _
    · exact Emits.update fun _ _ => rfl
  · exact openTripleTerm_pushes start
  · exact Emits.bind (nodeOr_pushes start t _) completeObject_pushes

theorem emitLang_pushes (tag : String) (dir : Option Dir) : Pushes (emitLang tag dir) := by
  refine Emits.get (fun _ _ => rfl) fun d => ?_
  exact Emits.bind (emitTerm_pushes _) completeObject_pushes

theorem onLangTag_pushes (start : Position) (tag : String) (dir : Option Dir) :
    Pushes (onLangTag start tag dir) := by
  refine Emits.get (fun _ _ => rfl) fun d => ?_
  split
  · exact err_pushes start _
  · exact emitLang_pushes tag dir

theorem handled_pushes {m : Nx Unit} (h : Pushes m) : Pushes (handled m) :=
  Emits.bind h fun _ => Emits.pure false

theorem onAfterString_pushes (start : Position) (t : Token) : Pushes (onAfterString start t) := by
  unfold onAfterString
  split
  · exact handled_pushes (onLangTag_pushes start _ _)
  · exact handled_pushes (emitLang_pushes _ _)
  · exact handled_pushes (emitLang_pushes _ _)
  · exact handled_pushes (emitLang_pushes _ _)
  · exact handled_pushes (Emits.update fun _ _ => rfl)
  · refine Emits.get (fun _ _ => rfl) fun d => ?_
    refine Emits.bind (emitTerm_pushes _) fun h => ?_
    exact Emits.bind (completeObject_pushes h) fun _ => Emits.pure true

theorem onDatatype_pushes (start : Position) (t : Token) : Pushes (onDatatype start t) := by
  unfold onDatatype
  split
  · exact Emits.bind (emitTyped_pushes start _) completeObject_pushes
  · exact err_pushes start _

theorem onAfterObject_pushes (start : Position) (t : Token) : Pushes (onAfterObject start t) := by
  refine Emits.get (fun _ _ => rfl) fun d => ?_
  split
  · exact emitStatement_pushes
  · split
    · exact Emits.bind (nodeOr_pushes start t _) fun h => Emits.update fun _ _ => rfl
    · exact err_pushes start _

theorem onAfterGraph_pushes (start : Position) (t : Token) : Pushes (onAfterGraph start t) := by
  unfold onAfterGraph
  split
  · exact emitStatement_pushes
  · exact err_pushes start _

theorem updateTt_pushes (f : Option H × Option H → Option H × Option H) (state : NxState) :
    Pushes (updateTt f state) := by
  refine Emits.get (fun _ _ => rfl) fun d => ?_
  split
  · exact Emits.crash _
  · exact Emits.update fun _ _ => rfl

theorem closeTripleTerm_pushes : Pushes closeTripleTerm := by
  refine Emits.get (fun _ _ => rfl) fun d => ?_
  split
  · exact Emits.crash _
  · refine Emits.bind (Emits.update fun _ _ => rfl) fun _ => ?_
    refine Emits.bind (Emits.expect _ _) fun s => ?_
    refine Emits.bind (Emits.expect _ _) fun p => ?_
    refine Emits.bind (Emits.expect _ _) fun o => ?_
    refine Emits.bind (Emits.update fun _ _ => rfl) fun _ => ?_
    exact Emits.bind (emitTripleTerm_pushes s p o) completeObject_pushes

theorem dispatch_pushes (start : Position) (t : Token) : Pushes (dispatch start t) := by
  refine Emits.get (fun _ _ => rfl) fun d => ?_
  split
  · exact handled_pushes (Emits.bind (nodeOr_pushes start t _) fun h =>
      Emits.update fun _ _ => rfl)
  · exact handled_pushes (Emits.bind (iriOr_pushes start t _) fun h =>
      Emits.update fun _ _ => rfl)
  · exact handled_pushes (onObject_pushes start t)
  · exact onAfterString_pushes start t
  · exact handled_pushes (onDatatype_pushes start t)
  · exact handled_pushes (onAfterObject_pushes start t)
  · exact handled_pushes (onAfterGraph_pushes start t)
  · exact handled_pushes (Emits.bind (nodeOr_pushes start t _) fun h => updateTt_pushes _ _)
  · exact handled_pushes (Emits.bind (iriOr_pushes start t _) fun h => updateTt_pushes _ _)
  · refine handled_pushes ?_
    unfold onTtClose
    split
    · exact closeTripleTerm_pushes
    · exact err_pushes start _
  · exact Emits.crash _

theorem step_pushes (start : Position) (t : Token) : Pushes (step start t) := by
  refine Emits.bind (dispatch_pushes start t) fun again => ?_
  split
  · exact Emits.bind (dispatch_pushes start t) fun _ => Emits.pure ()
  · exact Emits.pure ()

end Graphy.Turtle.NxDriver
