import Mathlib.Data.List.Forall2
import Graphy.Core.Proofs.Encode
import Graphy.Turtle.Proofs.Sizes

/-!
# The round trip

A document of written quads is read back exactly when the arenas suffice: the records of a
parse are the quads with numbered labels, and an overrun either panics or leaves a record
that no renaming explains.
-/

namespace Graphy.Turtle

open Graphy.Concise

/-! ## Documents -/

/-- With short statements the records are the quads with numbered labels. -/
theorem buildQuads_of_short {all : List String} {qs : List QuadView} {ctx : TermCtx}
    {seen : List String} (numbers : Numbers ctx seen) (grows : qs.foldl seeQuad seen <+: all)
    (short : ∀ q ∈ qs, (q.rename (ordinalLabel all)).arena < 2 ^ 32) (buf : QuadBuf) :
    ∃ ctx', buildQuads qs ctx buf =
      some (ctx', (qs.map fun q => (q.rename (ordinalLabel all)).encode).foldl
        QuadBuf.push buf) := by
  induction qs generalizing ctx seen buf with
  | nil => exact ⟨ctx, rfl⟩
  | cons q qs ih =>
      have growsQ : seeQuad seen q <+: all := (seeQuads_grows qs _).trans grows
      obtain ⟨ctx', built, numbers'⟩ :=
        buildQuad_of_short numbers growsQ (short q (List.mem_cons_self ..))
      obtain ⟨final, rest⟩ := ih numbers' grows
        (fun q mem => short q (List.mem_cons_of_mem _ mem)) _
      refine ⟨final, ?_⟩
      simp only [buildQuads, built, Option.bind_eq_bind, Option.bind_some]
      exact rest

/-- The record of a written quad: the quad with numbered labels, or a `Short` one. -/
structure Recorded (all : List String) (r : QuadRec) (q : QuadView) : Prop where
  small : r.Small
  exact_or : (q.rename (ordinalLabel all)).arena < 2 ^ 32 ∧
      r = (q.rename (ordinalLabel all)).encode ∨ r.Short (q.rename (ordinalLabel all))

theorem recorded_of_buildQuads {all : List String} {qs : List QuadView} {ctx ctx' : TermCtx}
    {seen : List String} (numbers : Numbers ctx seen) (grows : qs.foldl seeQuad seen <+: all)
    {buf buf' : QuadBuf} (built : buildQuads qs ctx buf = some (ctx', buf')) :
    ∃ rs, buf' = rs.foldl QuadBuf.push buf ∧ List.Forall₂ (Recorded all) rs qs := by
  induction qs generalizing ctx seen buf with
  | nil =>
      cases built
      exact ⟨[], rfl, .nil⟩
  | cons q qs ih =>
      have growsQ : seeQuad seen q <+: all := (seeQuads_grows qs _).trans grows
      simp only [buildQuads, Option.bind_eq_bind, Option.bind_eq_some_iff] at built
      obtain ⟨⟨record, ctxQ⟩, builtQ, built⟩ := built
      obtain ⟨numbers', small, exact_or⟩ := record_of_buildQuad numbers growsQ builtQ
      obtain ⟨rs, same, recorded⟩ := ih numbers' grows built
      exact ⟨record :: rs, same, .cons ⟨small, exact_or⟩ recorded⟩

theorem small_of_recorded {all : List String} {rs : List QuadRec} {qs : List QuadView}
    (recorded : List.Forall₂ (Recorded all) rs qs) :
    ∀ r ∈ rs, r.Small := by
  induction recorded with
  | nil => exact nofun
  | cons first rest ih =>
      intro r mem
      rcases List.mem_cons.mp mem with rfl | mem
      · exact first.small
      · exact ih r mem

/-! ## Renamings -/

theorem length_rename_node {f g : String → String} (short : ∀ label, (strBytes (f label)).length ≤ 44)
    {v : TermView} (node : v.isNode = true) :
    (reencode (renameTerm f v)).length ≤ (reencode (renameTerm g v)).length + 44 := by
  cases v with
  | iri i => exact Nat.le_add_right _ _
  | blankNode label =>
      have bound := short label
      simp only [renameTerm, reencode, encodeBlank, List.length_cons]
      omega
  | _ => cases node

/-- By induction on the term: short labels make it little longer than any others, so a
renamed term is never a `Short` one. -/
theorem length_rename {f g : String → String} (short : ∀ label, (strBytes (f label)).length ≤ 44)
    {v : TermView} (valid : v.Valid) (depth : v.depth ≤ maxTripleTermDepth)
    (small : (reencode (renameTerm g v)).length < 2 ^ 32) :
    (reencode (renameTerm f v)).length ≤
      (reencode (renameTerm g v)).length + 44 + 256 * v.depth := by
  induction v with
  | tripleTerm s p o ihS ihP ihO =>
      have leS := length_rename_node (g := g) short valid.1.1
      have leP := length_rename_node (g := g) short (isNode_of_isIri valid.1.2)
      have depthO : (TermView.tripleTerm s p o).depth = 1 + max s.depth (max p.depth o.depth) := rfl
      have lengthF := length_encodeTripleTerm (reencode (renameTerm f s))
        (reencode (renameTerm f p)) (reencode (renameTerm f o))
      have lengthG := length_encodeTripleTerm (reencode (renameTerm g s))
        (reencode (renameTerm g p)) (reencode (renameTerm g o))
      simp only [renameTerm, reencode] at small ⊢
      have levels : maxTripleTermDepth = 32 := rfl
      have deeper : o.depth + 1 ≤ (TermView.tripleTerm s p o).depth := by omega
      have leO := ihO valid.2.2.2 (by omega) (by omega)
      have varint : ∀ n, n < 2 ^ 32 + 2 ^ 32 → (Varint.write n).length ≤ 5 :=
        fun n le => Varint.length_write_le (by omega)
      have varintS := varint (reencode (renameTerm f s)).length (by omega)
      have varintP := varint (reencode (renameTerm f p)).length (by omega)
      have varintO := varint (reencode (renameTerm f o)).length (by omega)
      omega
  | _ => first
    | exact Nat.le_trans (length_rename_node short rfl) (Nat.le_add_right _ _)
    | exact Nat.le_trans (Nat.le_add_right _ 44) (Nat.le_add_right _ _)

/-- A renamed record is never too short for the quad with short labels. -/
theorem not_short_rename {f g : String → String} (short : ∀ label, (strBytes (f label)).length ≤ 44)
    {q : QuadView} (valid : q.Valid) (small : (q.rename g).encode.Small) :
    ¬ (q.rename g).encode.Short (q.rename f) := by
  have node : ∀ v : TermView, v.isNode = true →
      ¬ Turtle.Short (reencode (renameTerm g v)) (reencode (renameTerm f v)) := by
    intro v isNode
    have le := length_rename_node (g := g) short isNode
    unfold Turtle.Short
    omega
  rintro (shortS | shortP | shortO | ⟨renamed, graph, shortG⟩)
  · exact node q.s valid.subject.1 shortS
  · exact node q.p (isNode_of_isIri valid.predicate.1) shortP
  · have le := length_rename short valid.object.1 valid.object.2 small.2.2.1
    have depth := valid.object.2
    have levels : maxTripleTermDepth = 32 := rfl
    simp only [Turtle.Short, QuadView.rename, QuadView.encode] at shortO
    omega
  · obtain ⟨v, isGraph, rfl⟩ := Option.map_eq_some_iff.mp graph
    refine node v (valid.graph v isGraph).1 ?_
    simpa [QuadView.rename, QuadView.encode, isGraph] using shortG

theorem length_see (seen : List String) (label : String) :
    (see seen label).length ≤ seen.length + 1 := by
  unfold see
  split
  · omega
  · simp

/-- Every label that a term adds takes a byte of it. -/
theorem length_seeTerm (g : String → String) (v : TermView) (seen : List String) :
    (seeTerm seen v).length ≤ seen.length + (reencode (renameTerm g v)).length := by
  induction v generalizing seen with
  | blankNode label =>
      have one := length_see seen label
      simp only [renameTerm, reencode, encodeBlank, List.length_cons, seeTerm]
      omega
  | tripleTerm s p o ihS ihP ihO =>
      have leS := ihS seen
      have leP := ihP (seeTerm seen s)
      have leO := ihO (seeTerm (seeTerm seen s) p)
      have length := length_encodeTripleTerm (reencode (renameTerm g s))
        (reencode (renameTerm g p)) (reencode (renameTerm g o))
      simp only [renameTerm, reencode, seeTerm]
      omega
  | _ => exact Nat.le_add_right _ _

theorem length_seeQuads (g : String → String) (qs : List QuadView) (seen : List String) :
    (qs.foldl seeQuad seen).length ≤
      seen.length + (qs.map fun q => (q.rename g).encode.size).sum := by
  induction qs generalizing seen with
  | nil => exact Nat.le_add_right _ _
  | cons q qs ih =>
      have rest := ih (seeQuad seen q)
      have leS := length_seeTerm g q.s seen
      have leP := length_seeTerm g q.p (seeTerm seen q.s)
      have leO := length_seeTerm g q.o (seeTerm (seeTerm seen q.s) q.p)
      have leG : (seeQuad seen q).length ≤ (seeTerm (seeTerm (seeTerm seen q.s) q.p) q.o).length +
          (((q.g.map (renameTerm g)).map reencode).getD []).length := by
        unfold seeQuad
        cases q.g with
        | none => exact Nat.le_add_right _ _
        | some v => exact length_seeTerm g v _
      rw [List.foldl_cons, List.map_cons, List.sum_cons]
      simp only [QuadRec.size, QuadView.encode, QuadView.rename] at rest ⊢
      omega

/-- A numbered label is short. -/
theorem length_ordinalLabel {all : List String} (short : all.length < 2 ^ 32) (label : String) :
    (strBytes (ordinalLabel all label)).length ≤ 44 := by
  have le : all.idxOf label ≤ all.length := List.idxOf_le_length
  have digits : (toString (all.idxOf label)).length ≤ 10 :=
    (Nat.length_repr_le_iff (by decide)).mpr (by omega)
  have chars : (ordinalLabel all label).toList.length ≤ 11 := by
    rw [String.length_toList]
    unfold ordinalLabel
    rw [String.length_append]
    have one : "s".length = 1 := by decide
    omega
  have bytes := Utf8.length_encode_le (ordinalLabel all label).toList
  rw [strBytes_eq_encode]
  omega

theorem ordinalLabel_injOn (all : List String) :
    Set.InjOn (ordinalLabel all) {label | label ∈ all} := by
  intro a memA b memB same
  have chars := congrArg String.toList same
  simp only [ordinalLabel, String.toList_append] at chars
  have digits : Nat.toDigits 10 (all.idxOf a) = Nat.toDigits 10 (all.idxOf b) := by
    rw [← Nat.toList_repr, ← Nat.toList_repr]
    exact List.append_cancel_left chars
  have numbers := congrArg (Nat.ofDigitChars 10 · 0) digits
  simp only [Nat.ofDigitChars_ten_toDigits] at numbers
  exact (List.idxOf_inj memA).mp numbers

/-! ## Legal quads -/

/-- A legal quad has valid terms. -/
theorem view_of_legal {q : QuadRec} (legal : q.Legal) : ∃ v, q.view = some v ∧ v.Valid := by
  obtain ⟨ts, decodedS, posS⟩ := legal.subject
  obtain ⟨tp, decodedP, posP⟩ := legal.predicate
  obtain ⟨tObject, decodedO⟩ := legal.object
  obtain ⟨s, termS, viewS, validS, -⟩ := termOf_of_decode decodedS
  obtain ⟨p, termP, viewP, validP, -⟩ := termOf_of_decode decodedP
  obtain ⟨o, termO, -, validO, depthO⟩ := termOf_of_decode decodedO
  have nodeS := isNode_of_checkPosition posS viewS
  have iriP := isIri_of_checkPosition posP viewP
  cases graph : q.g with
  | none =>
      refine ⟨⟨s, p, o, none⟩, ?_, ⟨nodeS, validS⟩, ⟨iriP, validP⟩, ⟨validO, depthO⟩, nofun⟩
      simp [QuadRec.view, termS, termP, termO, graph]
  | some g =>
      obtain ⟨tg, decodedG, posG⟩ := legal.graph g graph
      obtain ⟨g', termG, viewG, validG, -⟩ := termOf_of_decode decodedG
      have nodeG := isNode_of_checkPosition posG viewG
      refine ⟨⟨s, p, o, some g'⟩, ?_, ⟨nodeS, validS⟩, ⟨iriP, validP⟩, ⟨validO, depthO⟩, ?_⟩
      · simp [QuadRec.view, termS, termP, termO, termG, graph]
      · rintro _ ⟨⟩
        exact ⟨nodeG, validG⟩

theorem views_of_legal {quads : List QuadRec} (legal : ∀ q ∈ quads, q.Legal) :
    ∃ views, quads.mapM QuadRec.view = some views ∧ (∀ v ∈ views, v.Valid) ∧
      writeQuads quads = some (views.map writeView).flatten := by
  induction quads with
  | nil => exact ⟨[], rfl, nofun, rfl⟩
  | cons q quads ih =>
      obtain ⟨v, viewed, valid⟩ := view_of_legal (legal q (List.mem_cons_self ..))
      obtain ⟨views, rest, valids, written⟩ :=
        ih fun q mem => legal q (List.mem_cons_of_mem _ mem)
      refine ⟨v :: views, by simp [List.mapM_cons, viewed, rest], ?_, ?_⟩
      · rintro w mem
        rcases List.mem_cons.mp mem with rfl | mem
        · exact valid
        · exact valids w mem
      · obtain ⟨texts, isTexts, flat⟩ := Option.map_eq_some_iff.mp written
        simp [writeQuads, List.mapM_cons, writeQuad, viewed, isTexts, flat]

/-! ## Main result -/

/-- The records of a parse, when it succeeds. -/
theorem parse_ok {lenient trusted : Bool} {views : List QuadView} (valid : ∀ q ∈ views, q.Valid)
    {out : List QuadRec} :
    (∃ p, parseNQuads lenient trusted (views.map writeView).flatten = .ok out p) ↔
      (buildQuads views (startCtx trusted) .empty).bind (fun built => built.2.iter) =
        some out := by
  have parsed := parse_written lenient trusted valid
  cases result : (buildQuads views (startCtx trusted) .empty).bind fun built => built.2.iter with
  | none =>
      rw [result] at parsed
      obtain ⟨message, p, panics⟩ := parsed
      refine ⟨?_, fun same => by cases same⟩
      rintro ⟨p', ok⟩
      rw [panics] at ok
      cases ok
  | some records =>
      rw [result] at parsed
      obtain ⟨p, ok⟩ := parsed
      constructor
      · rintro ⟨p', ok'⟩
        rw [ok] at ok'
        cases ok'
        rfl
      · intro same
        cases same
        exact ⟨p, ok⟩

theorem numbers_start (trusted : Bool) : Numbers (startCtx trusted) [] :=
  ⟨rfl, rfl, fun label => by simp [startCtx]⟩

/-- With all sizes short the quads come back with numbered labels. -/
theorem parse_of_fits (lenient trusted : Bool) {views : List QuadView}
    (valid : ∀ q ∈ views, q.Valid) (fits : Fits views) :
    ∃ p, parseNQuads lenient trusted (views.map writeView).flatten =
      .ok (views.map fun q => (q.rename (ordinalLabel (labelsOf views))).encode) p := by
  refine (parse_ok valid).mpr ?_
  obtain ⟨ctx, built⟩ := buildQuads_of_short (numbers_start trusted)
    (List.prefix_refl (labelsOf views)) fits.statements .empty
  have total : ((views.map fun q =>
      (q.rename (ordinalLabel (labelsOf views))).encode).map QuadRec.size).sum < 2 ^ 32 := by
    rw [List.map_map]
    exact fits.buffer
  have read := iter_pushes (small_of_sum total)
  rw [if_pos total] at read
  rw [built, Option.bind_some, read]

/-- A renaming that explains the records is a proof that the sizes are short: no record is
a `Short` one. -/
theorem fits_of_parse {lenient trusted : Bool} {views : List QuadView}
    (valid : ∀ q ∈ views, q.Valid) {rename : String → String} {p : NxParser}
    (parsed : parseNQuads lenient trusted (views.map writeView).flatten =
      .ok (views.map fun q => (q.rename rename).encode) p) : Fits views := by
  have result := (parse_ok valid).mp ⟨p, parsed⟩
  obtain ⟨⟨ctx, buf⟩, built, read⟩ := Option.bind_eq_some_iff.mp result
  obtain ⟨rs, rfl, recorded⟩ := recorded_of_buildQuads (numbers_start trusted)
    (List.prefix_refl (labelsOf views)) built
  have small := small_of_recorded recorded
  rw [iter_pushes small] at read
  split at read
  · rename_i total
    rw [Option.some.injEq] at read
    subst read
    rw [List.map_map] at total
    rw [List.forall₂_map_left_iff, List.forall₂_same] at recorded
    have labels : (labelsOf views).length < 2 ^ 32 := by
      have le := length_seeQuads rename views []
      rw [List.length_nil, Nat.zero_add] at le
      exact Nat.lt_of_le_of_lt le total
    have shortLabels := length_ordinalLabel labels
    have exact_ : ∀ q ∈ views, (q.rename (ordinalLabel (labelsOf views))).arena < 2 ^ 32 ∧
        (q.rename rename).encode = (q.rename (ordinalLabel (labelsOf views))).encode := by
      intro q mem
      have one := recorded q mem
      exact one.exact_or.resolve_right (not_short_rename shortLabels (valid q mem) one.small)
    refine ⟨fun q mem => (exact_ q mem).1, ?_⟩
    have same : (views.map fun q => (q.rename (ordinalLabel (labelsOf views))).encode.size) =
        views.map (QuadRec.size ∘ fun q => (q.rename rename).encode) :=
      List.map_congr_left fun q mem => congrArg QuadRec.size (exact_ q mem).2.symm
    rw [same]
    exact total
  · cases read

theorem fits_of_roundTrips {lenient trusted : Bool} {quads : List QuadRec}
    (legal : ∀ q ∈ quads, q.Legal) (h : RoundTrips lenient trusted quads) :
    ∃ views, quads.mapM QuadRec.view = some views ∧ Fits views := by
  obtain ⟨views, viewed, valid, written⟩ := views_of_legal legal
  obtain ⟨text, views', rename, isText, viewed', -, p, parsed⟩ := h
  cases written.symm.trans isText
  cases viewed.symm.trans viewed'
  exact ⟨views, viewed, fits_of_parse valid parsed⟩

/-- Written and parsed, legal quads come back exactly when their sizes are short. -/
theorem roundTrips_iff (lenient trusted : Bool) {quads : List QuadRec}
    (legal : ∀ q ∈ quads, q.Legal) :
    RoundTrips lenient trusted quads ↔
      ∃ views, quads.mapM QuadRec.view = some views ∧ Fits views := by
  refine ⟨fits_of_roundTrips legal, ?_⟩
  rintro ⟨views, viewed, fits⟩
  obtain ⟨views', viewed', valid, written⟩ := views_of_legal legal
  cases viewed.symm.trans viewed'
  exact ⟨_, views, _, written, viewed, ordinalLabel_injOn _,
    parse_of_fits lenient trusted valid fits⟩

/-- A repeated blank node, and a literal with escapes and a directional tag in a triple
term. -/
def mixedQuad : QuadView where
  s := .blankNode "x.y"
  p := .iri "a:p"
  o := .tripleTerm (.blankNode "z") (.iri "a:p") (.lang "\"\\\n\t" "base" (some .rtl))
  g := some (.blankNode "x.y")

theorem roundTrips_mixedQuad : RoundTrips false false [mixedQuad.encode] :=
  (roundTrips_iff false false (by
    intro q mem
    cases List.mem_singleton.mp mem
    exact ⟨⟨.blankNode "x.y", by decide +kernel, rfl⟩, ⟨.iri "a:p", by decide +kernel, rfl⟩,
      ⟨.tripleTerm (mixedQuad.encode.o.drop 1), by decide +kernel⟩,
      fun g same => ⟨.blankNode "x.y", by cases same; decide +kernel, rfl⟩⟩)).mpr
    ⟨[mixedQuad], by decide +kernel, by
      intro q mem
      cases List.mem_singleton.mp mem
      decide +kernel, by decide +kernel⟩

def literalQuad (lex : String) : QuadRec :=
  ⟨encodeIri "a:", encodeIri "a:", encodeSimple lex, none, none⟩

theorem legal_literalQuad (lex : String) : ∀ q ∈ [literalQuad lex], q.Legal := by
  intro q mem
  rw [List.mem_singleton.mp mem]
  have iri : decode (encodeIri "a:") = .ok (.iri "a:") := by decide +kernel
  exact ⟨⟨.iri "a:", iri, rfl⟩, ⟨.iri "a:", iri, rfl⟩, ⟨.simple lex, decode_encodeSimple lex⟩,
    nofun⟩

/-- A literal that takes more bytes than a handle counts does not come back. -/
theorem not_roundTrips_literalQuad {lenient trusted : Bool} {lex : String}
    (long : 2 ^ 32 ≤ (strBytes lex).length) : ¬ RoundTrips lenient trusted [literalQuad lex] := by
  intro trips
  obtain ⟨views, viewed, fits⟩ := fits_of_roundTrips (legal_literalQuad lex) trips
  have iri : termOf (encodeIri "a:") = some (.iri "a:") := by decide +kernel
  have literal : termOf (encodeSimple lex) = some (.simple lex) := by
    rw [termOf, decode_encodeSimple]
    rfl
  have view : (literalQuad lex).view = some ⟨.iri "a:", .iri "a:", .simple lex, none⟩ := by
    unfold QuadRec.view literalQuad
    simp only [iri, literal, Option.bind_eq_bind, Option.bind_some, Option.pure_def]
  simp only [List.mapM_cons, view, List.mapM_nil, Option.bind_eq_bind, Option.bind_some,
    Option.pure_def, Option.some.injEq] at viewed
  subst viewed
  have buffer := fits.buffer
  simp only [List.map_cons, List.map_nil, List.sum_cons, List.sum_nil, QuadView.rename,
    renameTerm, QuadView.encode, reencode, QuadRec.size, encodeSimple, List.length_cons] at buffer
  omega

def repeated (n : Nat) : String := String.ofList (List.replicate n 'a')

theorem length_repeated (n : Nat) : (strBytes (repeated n)).length = n := by
  have one : Char.utf8Size 'a' = 1 := by decide
  rw [strBytes_eq_encode, repeated, String.toList_ofList, Utf8.length_encode, List.map_replicate,
    List.sum_replicate_nat, one, Nat.mul_one]

/-- A literal of 2^32 characters. -/
def longText : String := repeated (2 ^ 32)

theorem not_roundTrips_longText : (∀ q ∈ [literalQuad longText], q.Legal) ∧
    ¬ RoundTrips false false [literalQuad longText] :=
  ⟨legal_literalQuad longText,
    not_roundTrips_literalQuad (Nat.le_of_eq (length_repeated (2 ^ 32)).symm)⟩

end Graphy.Turtle
