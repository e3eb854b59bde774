import Graphy.Turtle.Proofs.Coherence

/-!
# Delivering and closing

A value delivered where it is expected leaves the parser coherent.  Closing a construct
takes its frame off and delivers its value to what surrounds it; the only way to fail
is a triple term that would nest too deeply.
-/

namespace Graphy.Turtle

open Graphy.Comp

namespace Parser

variable {st : Parser} {E : Parser → Prop}

/-! ## Delivery -/

theorem safe_linkTail {Q : Unit → Parser → Prop} {tail : Option H} {n : H}
    (ht : ∀ h ∈ tail, st.Valid h) (hn : st.Valid n) (h : ∀ st', Quiet st st' → Q () st') :
    safe (linkTail tail n) Q E st := by
  cases tail with
  | none => exact safe_pure (h st (Quiet.refl st))
  | some t =>
      refine safe_bind (fun _ => grows_emit _ _ _ _) ?_
      apply safe_emitTerm
      intro restIri st₁ quiet validRest
      apply safe_emit ((ht t rfl).grow quiet.grown) validRest (hn.grow quiet.grown)
      intro st₂ quiet'
      exact h st₂ (quiet.trans quiet')

/-- The next item of a collection. -/
theorem safe_item {h : H} {shorthand : Option Shorthand} {head tail : Option H} {ret : Ret}
    {rest : List Frame} (valid : st.Valid h) (range : st.InRange)
    (nested : Nested st.subject st.predicate st.stack)
    (top : st.stack = .collection head tail ret :: rest) :
    safe (objectDone h shorthand) (fun _ st' => st'.Coherent) E st := by
  have inRange := range.stack _ (top ▸ List.mem_cons_self)
  apply safe_get
  simp only [top]
  refine safe_bind (fun _ => grows_bind (grows_wellKnown _) fun _ =>
    grows_bind (grows_linkTail _ _) fun _ => grows_bind (grows_emit _ _ _ _) fun _ =>
      grows_update fun _ => rfl) ?_
  apply safe_freshBnode
  intro n st₁ quiet₁ validN
  refine safe_bind (fun _ => grows_bind (grows_linkTail _ _) fun _ =>
    grows_bind (grows_emit _ _ _ _) fun _ => grows_update fun _ => rfl) ?_
  apply safe_emitTerm
  intro first st₂ quiet₂ validFirst
  have quiet₁₂ := quiet₁.trans quiet₂
  refine safe_bind (fun _ => grows_bind (grows_emit _ _ _ _) fun _ => grows_update fun _ => rfl) ?_
  apply safe_linkTail (fun t mem => (inRange.2 t mem).grow quiet₁₂.grown)
    (validN.grow quiet₂.grown)
  intro st₃ quiet₃
  refine safe_bind (fun _ => grows_update fun _ => rfl) ?_
  have quiet₁₃ := quiet₁₂.trans quiet₃
  apply safe_emit (validN.grow (le_trans quiet₂.grown quiet₃.grown))
    (validFirst.grow quiet₃.grown) (valid.grow quiet₁₃.grown)
  intro st₄ quiet₄
  have total := quiet₁₃.trans quiet₄
  have validN₄ : st₄.Valid n :=
    validN.grow (le_trans quiet₂.grown (le_trans quiet₃.grown quiet₄.grown))
  have range₄ := range.quiet total
  have sameStack : st₄.stack = .collection head tail ret :: rest := by rw [total.same, ← top]
  have sameSubject : st₄.subject = st.subject := by rw [total.same]
  have samePredicate : st₄.predicate = st.predicate := by rw [total.same]
  refine fun _ => ⟨{ range₄ with stack := ?_ }, ?_, trivial⟩
  · intro f mem
    rcases List.mem_cons.mp mem with rfl | older
    · refine ⟨?_, ?_⟩
      · intro h' mem'
        cases head with
        | none =>
            cases mem'
            exact validN₄
        | some hd =>
            cases mem'
            exact (inRange.1 hd rfl).grow total.grown
      · intro h' mem'
        cases mem'
        exact validN₄
    · exact range₄.stack f (sameStack ▸ List.mem_cons_of_mem _ older)
  · show Nested st₄.subject st₄.predicate _
    rw [sameSubject, samePredicate]
    rw [top] at nested
    exact nested

theorem safe_objectDone {h : H} {shorthand : Option Shorthand} (valid : st.Valid h)
    (range : st.InRange) (nested : Nested st.subject st.predicate st.stack)
    (ready : ObjectReady st.subject st.predicate st.stack) :
    safe (objectDone h shorthand) (fun _ st' => st'.Coherent) E st := by
  by_cases item : ∃ head tail ret rest, st.stack = .collection head tail ret :: rest
  · obtain ⟨head, tail, ret, rest, top⟩ := item
    exact safe_item valid range nested top
  · have fields : st.subject.isSome = true ∧ st.predicate.isSome = true ∧ PolTop st.stack := by
      cases stack : st.stack with
      | nil =>
          rw [stack] at ready
          exact ⟨ready.1, ready.2, trivial⟩
      | cons f rest =>
          rw [stack] at ready
          cases f with
          | collection head tail ret => exact absurd ⟨head, tail, ret, rest, stack⟩ item
          | rt => exact ready.elim
          | tt => exact ready.elim
          | _ => exact ⟨ready.1, ready.2, trivial⟩
    obtain ⟨hs, hp, top⟩ := fields
    obtain ⟨s, subject⟩ := Option.isSome_iff_exists.mp hs
    obtain ⟨p, predicate⟩ := Option.isSome_iff_exists.mp hp
    have validS := range.subject s subject
    have validP := range.predicate p predicate
    apply safe_get
    split
    · rename_i head tail ret rest stack
      exact absurd ⟨head, tail, ret, rest, stack⟩ item
    · simp only [subject, predicate]
      apply safe_expect
      apply safe_expect
      refine safe_bind (fun _ => grows_update fun _ => rfl) ?_
      apply safe_emit validS validP valid
      intro st' quiet
      have range' := range.quiet quiet
      have same := quiet.same
      rw [same] at range' ⊢
      refine fun _ => ⟨{ range' with
        last := ?_
        curTt := fun _ mem => by cases mem
        curReifier := fun _ mem => by cases mem }, nested, hs, hp, rfl, top⟩
      intro s' p' o' last
      cases last
      have le : st.size ≤ st'.size := quiet.grown
      exact ⟨validS.grow le, validP.grow le, valid.grow le⟩

/-- A part filled in on the reified triple on top. -/
theorem safe_updateRt {f : Parts → Parts} {next : S} {pre : Parts → Prop} (range : st.InRange)
    (nested : Nested st.subject st.predicate st.stack) (top : RtTop pre st.stack)
    (inRange : ∀ parts ret, (Frame.rt parts ret).All st.Valid → (Frame.rt (f parts) ret).All st.Valid)
    (fits : ∀ parts ret rest, pre parts →
      StateFits { st with stack := .rt (f parts) ret :: rest, state := next } next) :
    safe (updateRt f next) (fun _ st' => st'.Coherent) E st := by
  cases stack : st.stack with
  | nil =>
      rw [stack] at top
      exact top.elim
  | cons frame rest =>
      rw [stack] at top nested
      cases frame with
      | rt parts ret =>
          apply safe_get
          simp only [stack]
          refine fun _ => ⟨{ range with stack := ?_ }, nested, fits parts ret rest top⟩
          intro g mem
          rcases List.mem_cons.mp mem with rfl | older
          · exact inRange parts ret (range.stack _ (stack ▸ List.mem_cons_self))
          · exact range.stack g (stack ▸ List.mem_cons_of_mem _ older)
      | _ => exact top.elim

/-- A part filled in on the triple term on top. -/
theorem safe_updateTt {f : Parts → Parts} {next : S} {pre : Parts → Prop} (range : st.InRange)
    (nested : Nested st.subject st.predicate st.stack) (top : TtTop pre st.stack)
    (inRange : ∀ parts ret, (Frame.tt parts ret).All st.Valid → (Frame.tt (f parts) ret).All st.Valid)
    (fits : ∀ parts ret rest, pre parts →
      StateFits { st with stack := .tt (f parts) ret :: rest, state := next } next) :
    safe (updateTt f next) (fun _ st' => st'.Coherent) E st := by
  cases stack : st.stack with
  | nil =>
      rw [stack] at top
      exact top.elim
  | cons frame rest =>
      rw [stack] at top nested
      cases frame with
      | tt parts ret =>
          apply safe_get
          simp only [stack]
          refine fun _ => ⟨{ range with stack := ?_ }, nested, fits parts ret rest top⟩
          intro g mem
          rcases List.mem_cons.mp mem with rfl | older
          · exact inRange parts ret (range.stack _ (stack ▸ List.mem_cons_self))
          · exact range.stack g (stack ▸ List.mem_cons_of_mem _ older)
      | _ => exact top.elim

/-- The handles of parts with one of them replaced. -/
theorem all_some {V : H → Prop} {h : H} (valid : V h) : ∀ h' ∈ some h, V h' := by
  intro h' mem
  cases mem
  exact valid

/-- A value delivered where it is expected keeps the parser coherent. -/
theorem safe_deliver {ret : Ret} {h : H} {shorthand : Option Shorthand} (valid : st.Valid h)
    (range : st.InRange) (nested : Nested st.subject st.predicate st.stack)
    (delivers : st.Delivers ret) (fits : ret = .annoReifier → st.AnnotationFits) :
    safe (deliver ret h shorthand) (fun _ st' => st'.Coherent) E st := by
  cases ret with
  | subject =>
      exact fun _ => ⟨{ range with subject := all_some valid },
        StatementTop.nested delivers _ _, rfl, StatementTop.polTop delivers⟩
  | subjectOptionalPol =>
      exact fun _ => ⟨{ range with subject := all_some valid },
        StatementTop.nested delivers _ _, rfl, delivers⟩
  | statementNode =>
      exact fun _ => ⟨{ range with pendingNode := all_some valid }, nested, delivers, rfl⟩
  | object => exact safe_objectDone valid range nested delivers
  | rtSubject =>
      apply safe_updateRt range nested delivers
      · intro parts ret all
        exact ⟨all_some valid, all.2⟩
      · intro parts ret rest _
        exact (rfl : (some h).isSome = true)
  | rtObject =>
      apply safe_updateRt range nested delivers
      · intro parts ret all
        exact ⟨all.1, all.2.1, all_some valid, all.2.2.2⟩
      · intro parts ret rest verb
        exact ⟨verb.1, verb.2, rfl⟩
  | rtReifier =>
      apply safe_updateRt range nested delivers
      · intro parts ret all
        exact ⟨all.1, all.2.1, all.2.2.1, all_some valid⟩
      · intro parts ret rest full
        exact full
  | ttSubject =>
      apply safe_updateTt range nested delivers
      · intro parts ret all
        exact ⟨all_some valid, all.2⟩
      · intro parts ret rest _
        exact (rfl : (some h).isSome = true)
  | ttObject =>
      apply safe_updateTt range nested delivers
      · intro parts ret all
        exact ⟨all.1, all.2.1, all_some valid, all.2.2.2⟩
      · intro parts ret rest verb
        exact ⟨verb.1, verb.2, rfl⟩
  | graphName =>
      refine safe_bind (fun _ => grows_update fun _ => rfl) ?_
      apply safe_bytesOf valid
      intro label _
      exact ⟨{ range with }, nested, delivers⟩
  | annoReifier =>
      obtain ⟨hs, hp, hl, top⟩ := delivers
      refine safe_bind (fun _ => grows_update fun _ => rfl) ?_
      apply safe_reifyExpected valid range.last hl range.curTt (fits rfl)
      intro st' reified
      have range' := range.reified reified
      have same := reified.same
      have le : st.size ≤ st'.size := reified.grown
      rw [same] at range' ⊢
      exact fun _ => ⟨{ range' with curReifier := all_some (valid.grow le) }, nested, hs, hp, hl, top⟩

/-! ## Closing -/

/-- The quoted triple on top would make a triple term that nests too deeply. -/
def TopTooDeep (st : Parser) : Prop :=
  match st.stack with
  | .rt parts _ :: _ | .tt parts _ :: _ =>
      ∃ s o, parts.s = some s ∧ parts.o = some o ∧
        Concise.maxTripleTermDepth < st.tripleDepth s o
  | _ => False

/-- The value of a closed construct keeps the parser coherent. -/
theorem safe_deliverValue {ret : Ret} {h : H} {shorthand : Option Shorthand} (valid : st.Valid h)
    (range : st.InRange) (nested : Nested st.subject st.predicate st.stack)
    (accepts : Accepts st.subject st.predicate st.stack ret) :
    safe (deliver ret h shorthand) (fun _ st' => st'.Coherent) E st := by
  apply safe_deliver valid range nested (Accepts.delivers accepts)
  intro anno
  rw [anno] at accepts
  exact accepts.elim

/-- What is left once the frame on top is taken off. -/
theorem InRange.pop {f : Frame} {rest : List Frame} (range : st.InRange)
    (stack : st.stack = f :: rest) : InRange { st with stack := rest } :=
  { range with stack := fun g mem => range.stack g (stack ▸ List.mem_cons_of_mem _ mem) }

theorem grows_reifierOr (reifier : Option H) : Grows (reifierOr reifier) := by
  cases reifier with
  | some r => exact grows_pure r
  | none => exact grows_freshBnode

theorem safe_reifierOr {Q : H → Parser → Prop} {reifier : Option H}
    (known : ∀ r ∈ reifier, st.Valid r) (h : ∀ r st', Quiet st st' → st'.Valid r → Q r st') :
    safe (reifierOr reifier) Q E st := by
  cases reifier with
  | some r => exact safe_pure (h r st (Quiet.refl st) (known r rfl))
  | none => exact safe_freshBnode h

theorem safe_closeRt (range : st.InRange) (nested : Nested st.subject st.predicate st.stack)
    (top : RtTop Parts.Full st.stack) :
    safe closeRt (fun _ st' => st'.Coherent) (fun _ => st.TopTooDeep) st := by
  cases stack : st.stack with
  | nil =>
      rw [stack] at top
      exact top.elim
  | cons frame rest =>
      rw [stack] at top nested
      cases frame with
      | rt parts ret =>
          obtain ⟨accepts, nested⟩ := nested
          obtain ⟨hs, hp, ho⟩ := top
          obtain ⟨s, foundS⟩ := Option.isSome_iff_exists.mp hs
          obtain ⟨p, foundP⟩ := Option.isSome_iff_exists.mp hp
          obtain ⟨o, foundO⟩ := Option.isSome_iff_exists.mp ho
          obtain ⟨validS, validP, validO, validR⟩ := range.stack _ (stack ▸ List.mem_cons_self)
          have keptS : Valid { st with stack := rest } s := validS s foundS
          have keptP : Valid { st with stack := rest } p := validP p foundP
          have keptO : Valid { st with stack := rest } o := validO o foundO
          apply safe_get
          simp only [stack, foundS, foundP, foundO]
          apply safe_update
          apply safe_expect
          apply safe_expect
          apply safe_expect
          refine safe_bind (fun _ => grows_bind (grows_reifierOr _) fun _ =>
            grows_bind (grows_wellKnown _) fun _ => grows_bind (grows_emit _ _ _ _) fun _ =>
              grows_deliver _ _ _) ?_
          apply safe_buildTt keptS keptP keptO
          · intro deep
            unfold TopTooDeep
            rw [stack]
            exact ⟨s, o, foundS, foundO, deep⟩
          · intro tt st₁ builds validTt
            refine safe_bind (fun _ => grows_bind (grows_wellKnown _) fun _ =>
              grows_bind (grows_emit _ _ _ _) fun _ => grows_deliver _ _ _) ?_
            apply safe_reifierOr fun r mem => (validR r mem).grow builds.grown
            intro r st₂ quiet₂ validR₂
            refine safe_bind (fun _ => grows_bind (grows_emit _ _ _ _) fun _ =>
              grows_deliver _ _ _) ?_
            apply safe_emitTerm
            intro reifies st₃ quiet₃ validReifies
            refine safe_bind (fun _ => grows_deliver _ _ _) ?_
            apply safe_emit (validR₂.grow quiet₃.grown) validReifies
              (validTt.grow (le_trans quiet₂.grown quiet₃.grown))
            intro st₄ quiet₄
            have total := builds.trans (quiet₂.trans (quiet₃.trans quiet₄)).builds
            have range₄ := (range.pop stack).builds total
            have same := total.same
            have validR₄ : st₄.Valid r := validR₂.grow (le_trans quiet₃.grown quiet₄.grown)
            rw [same] at range₄ validR₄ ⊢
            exact safe_deliverValue validR₄ range₄ nested accepts
      | _ => exact top.elim

theorem safe_closeTt (range : st.InRange) (nested : Nested st.subject st.predicate st.stack)
    (top : TtTop Parts.Full st.stack) :
    safe closeTt (fun _ st' => st'.Coherent) (fun _ => st.TopTooDeep) st := by
  cases stack : st.stack with
  | nil =>
      rw [stack] at top
      exact top.elim
  | cons frame rest =>
      rw [stack] at top nested
      cases frame with
      | tt parts ret =>
          obtain ⟨accepts, nested⟩ := nested
          obtain ⟨hs, hp, ho⟩ := top
          obtain ⟨s, foundS⟩ := Option.isSome_iff_exists.mp hs
          obtain ⟨p, foundP⟩ := Option.isSome_iff_exists.mp hp
          obtain ⟨o, foundO⟩ := Option.isSome_iff_exists.mp ho
          obtain ⟨validS, validP, validO, _⟩ := range.stack _ (stack ▸ List.mem_cons_self)
          have keptS : Valid { st with stack := rest } s := validS s foundS
          have keptP : Valid { st with stack := rest } p := validP p foundP
          have keptO : Valid { st with stack := rest } o := validO o foundO
          apply safe_get
          simp only [stack, foundS, foundP, foundO]
          apply safe_update
          apply safe_expect
          apply safe_expect
          apply safe_expect
          refine safe_bind (fun _ => grows_deliver _ _ _) ?_
          apply safe_buildTt keptS keptP keptO
          · intro deep
            unfold TopTooDeep
            rw [stack]
            exact ⟨s, o, foundS, foundO, deep⟩
          · intro tt st₁ builds validTt
            have range₁ := (range.pop stack).builds builds
            have same := builds.same
            rw [same] at range₁ validTt ⊢
            exact safe_deliverValue validTt range₁ nested accepts
      | _ => exact top.elim

theorem safe_collectionValue {Q : H → Parser → Prop} {head tail : Option H}
    (hh : ∀ h ∈ head, st.Valid h) (ht : ∀ h ∈ tail, st.Valid h)
    (h : ∀ value st', Quiet st st' → st'.Valid value → Q value st') :
    safe (collectionValue head tail) Q E st := by
  unfold collectionValue
  split
  · rename_i hd tl
    refine safe_bind (fun _ => grows_bind (grows_wellKnown _) fun _ =>
      grows_bind (grows_emit _ _ _ _) fun _ => grows_pure _) ?_
    apply safe_emitTerm
    intro restIri st₁ quiet₁ validRest
    refine safe_bind (fun _ => grows_bind (grows_emit _ _ _ _) fun _ => grows_pure _) ?_
    apply safe_emitTerm
    intro nil st₂ quiet₂ validNil
    refine safe_bind (fun _ => grows_pure _) ?_
    have quiet₁₂ := quiet₁.trans quiet₂
    apply safe_emit ((ht tl rfl).grow quiet₁₂.grown) (validRest.grow quiet₂.grown) validNil
    intro st₃ quiet₃
    have total := quiet₁₂.trans quiet₃
    exact safe_pure (h hd st₃ total ((hh hd rfl).grow total.grown))
  · exact safe_emitTerm _ h

theorem safe_closeCollection (range : st.InRange)
    (nested : Nested st.subject st.predicate st.stack) :
    safe closeCollection (fun _ st' => st'.Coherent) (fun st' => st' = st) st := by
  apply safe_get
  split
  · rename_i head tail ret rest stack
    rw [stack] at nested
    obtain ⟨accepts, nested⟩ := nested
    obtain ⟨validH, validT⟩ := range.stack _ (stack ▸ List.mem_cons_self)
    apply safe_update
    refine safe_bind (fun _ => grows_deliver _ _ _) ?_
    have keptH : ∀ h ∈ head, Valid { st with stack := rest } h := validH
    have keptT : ∀ h ∈ tail, Valid { st with stack := rest } h := validT
    apply safe_collectionValue keptH keptT
    intro value st₁ quiet valid
    have range₁ := (range.pop stack).quiet quiet
    have same := quiet.same
    rw [same] at range₁ valid ⊢
    exact safe_deliverValue valid range₁ nested accepts
  · exact safe_err rfl

theorem safe_closeBnode (range : st.InRange) (nested : Nested st.subject st.predicate st.stack) :
    safe closeBnode (fun _ st' => st'.Coherent) (fun st' => st' = st) st := by
  apply safe_get
  split
  · rename_i b savedSubject savedPredicate ret rest stack
    rw [stack] at nested
    obtain ⟨accepts, nested⟩ := nested
    obtain ⟨validB, validS, validP⟩ := range.stack _ (stack ▸ List.mem_cons_self)
    apply safe_update
    exact safe_deliverValue validB
      { range.pop stack with subject := validS, predicate := validP } nested accepts
  · exact safe_err rfl

theorem safe_closeAnno (range : st.InRange) (nested : Nested st.subject st.predicate st.stack) :
    safe closeAnno (fun _ st' => st'.Coherent) (fun st' => st' = st) st := by
  apply safe_get
  split
  · rename_i savedSubject savedPredicate savedLast savedTt rest stack
    rw [stack] at nested
    obtain ⟨annotating, nested⟩ := nested
    obtain ⟨validS, validP, validL, validT⟩ := range.stack _ (stack ▸ List.mem_cons_self)
    refine fun _ => ⟨{ range.pop stack with
      subject := validS
      predicate := validP
      last := validL
      curTt := validT
      curReifier := fun _ mem => by cases mem }, nested, annotating⟩
  · exact safe_err rfl

end Parser

end Graphy.Turtle
