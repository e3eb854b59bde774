import Graphy.Turtle.Proofs.NQuads
import Graphy.Turtle.Proofs.Quads

/-!
# When the handles suffice

A handle keeps its ends modulo 2^32.  What it gives back is the term exactly when the
arena is still shorter; behind the first overrun either slicing fails or a term comes out
too short by 2^32 bytes at least.
-/

namespace Graphy.Turtle

open Graphy.Concise

/-! ## Labels -/

theorem see_grows (seen : List String) (label : String) : seen <+: see seen label := by
  unfold see
  split
  · exact List.prefix_refl seen
  · exact List.prefix_append seen [label]

theorem mem_see (seen : List String) (label : String) : label ∈ see seen label := by
  unfold see
  split
  · assumption
  · exact List.mem_append_right seen (List.mem_singleton.mpr rfl)

theorem seeTerm_grows (v : TermView) (seen : List String) : seen <+: seeTerm seen v := by
  induction v generalizing seen with
  | blankNode label => exact see_grows seen label
  | tripleTerm s p o ihS ihP ihO => exact (ihS seen).trans ((ihP _).trans (ihO _))
  | _ => exact List.prefix_refl seen

theorem seeGraph_grows (g : Option TermView) (seen : List String) : seen <+: seeGraph seen g := by
  cases g with
  | none => exact List.prefix_refl seen
  | some g => exact seeTerm_grows g seen

theorem seeQuad_grows (q : QuadView) (seen : List String) : seen <+: seeQuad seen q :=
  (seeTerm_grows q.s seen).trans ((seeTerm_grows q.p _).trans
    ((seeTerm_grows q.o _).trans (seeGraph_grows q.g _)))

theorem seeQuads_grows (qs : List QuadView) (seen : List String) :
    seen <+: qs.foldl seeQuad seen := by
  induction qs generalizing seen with
  | nil => exact List.prefix_refl seen
  | cons q qs ih => exact (seeQuad_grows q seen).trans (ih _)

theorem idxOf_of_grows {seen all : List String} (grows : seen <+: all) {label : String}
    (mem : label ∈ seen) : all.idxOf label = seen.idxOf label := by
  obtain ⟨more, rfl⟩ := grows
  exact List.idxOf_append_of_mem mem

/-- The context numbers the labels seen so far. -/
structure Numbers (ctx : TermCtx) (seen : List String) : Prop where
  labelNs : ctx.labelNs = none
  next : ctx.nextLabel = seen.length
  lookup : ∀ label, ctx.labels.lookup label =
    if label ∈ seen then some (seen.idxOf label) else none

theorem Numbers.internalLabel {ctx : TermCtx} {seen : List String} (h : Numbers ctx seen)
    (label : String) : (ctx.internalLabel label).1 = (see seen label).idxOf label ∧
      Numbers (ctx.internalLabel label).2 (see seen label) := by
  unfold TermCtx.internalLabel see
  rw [h.lookup label]
  by_cases mem : label ∈ seen
  · rw [if_pos mem, if_pos mem]
    exact ⟨rfl, h⟩
  · rw [if_neg mem, if_neg mem]
    have own : (seen ++ [label]).idxOf label = seen.length := by
      rw [List.idxOf_append, if_neg mem]
      simp
    refine ⟨by rw [own, h.next], h.labelNs, by simp [h.next], ?_⟩
    intro other
    rw [List.lookup_cons]
    by_cases same : other = label
    · subst same
      simp [own, h.next]
    · have apart : (other == label) = false := by simpa using same
      rw [apart]
      simp only [h.lookup, List.mem_append, List.mem_singleton, same, or_false]
      split
      · rename_i seenOther
        rw [List.idxOf_append_of_mem seenOther]
      · rfl

/-- The bytes of a numbered label. -/
theorem blankOrdinal_eq {all seen : List String} (grows : see seen label <+: all) :
    blankOrdinal none "s" ((see seen label).idxOf label) =
      encodeBlank (ordinalLabel all label) := by
  unfold blankOrdinal ordinalLabel
  rw [idxOf_of_grows grows (mem_see seen label)]
  rfl

/-! ## Terms -/

/-- The encoding of a triple term grows with its components. -/
theorem length_encodeTripleTerm (s p o : Bytes) : (encodeTripleTerm s p o).length =
    1 + ((Varint.write s.length).length + s.length) +
      ((Varint.write p.length).length + p.length) +
      ((Varint.write o.length).length + o.length) := by
  simp only [encodeTripleTerm, List.length_cons, List.length_append]
  omega

/-- By induction on the term: what building it needs is short, so every handle gives its
part back. -/
theorem build_of_short {all : List String} {v : TermView} {ctx : TermCtx} {stmt : Arena}
    {seen : List String} (numbers : Numbers ctx seen) (grows : seeTerm seen v <+: all)
    (short : stmt.bytes.length + termArena (renameTerm (ordinalLabel all) v) < 2 ^ 32) :
    ∃ h ctx' stmt', build v ctx stmt = some (h, ctx', stmt') ∧
      Numbers ctx' (seeTerm seen v) ∧ stmt.Grows stmt' ∧
      stmt'.bytes.length =
        stmt.bytes.length + termArena (renameTerm (ordinalLabel all) v) ∧
      ∀ later, stmt'.Grows later →
        later.get h = some (reencode (renameTerm (ordinalLabel all) v)) := by
  have leaf : ∀ (ctx : TermCtx) (stmt : Arena) (bytes : Bytes),
      stmt.bytes.length + bytes.length < 2 ^ 32 →
      stmt.Grows (stmt.append bytes) ∧
        (stmt.append bytes).bytes.length = stmt.bytes.length + bytes.length ∧
        ∀ later, (stmt.append bytes).Grows later →
          later.get ((stmt.append bytes).handleFrom stmt.mark) = some bytes :=
    fun ctx stmt bytes short => ⟨stmt.grows_append bytes, List.length_append,
      fun later behind => get_handle behind short⟩
  induction v generalizing ctx stmt seen with
  | blankNode label =>
      obtain ⟨ordinal, next⟩ := numbers.internalLabel label
      have bytes : blankOrdinal ctx.labelNs "s" (ctx.internalLabel label).1 =
          reencode (renameTerm (ordinalLabel all) (.blankNode label)) := by
        rw [numbers.labelNs, ordinal, blankOrdinal_eq grows]
        rfl
      refine ⟨_, _, _, rfl, next, ?_⟩
      rw [bytes]
      exact leaf ctx stmt _ short
  | tripleTerm s p o ihS ihP ihO =>
      simp only [renameTerm, termArena] at short ⊢
      have growsP : seeTerm (seeTerm seen s) p <+: all := (seeTerm_grows o _).trans grows
      have shortS : stmt.bytes.length + termArena (renameTerm (ordinalLabel all) s) < 2 ^ 32 := by
        omega
      obtain ⟨hs, ctxS, stmtS, builtS, numbersS, growS, lengthS, getS⟩ :=
        ihS numbers ((seeTerm_grows p _).trans growsP) shortS
      have shortP : stmtS.bytes.length + termArena (renameTerm (ordinalLabel all) p) < 2 ^ 32 := by
        omega
      obtain ⟨hp, ctxP, stmtP, builtP, numbersP, growP, lengthP, getP⟩ :=
        ihP numbersS growsP shortP
      have shortO : stmtP.bytes.length + termArena (renameTerm (ordinalLabel all) o) < 2 ^ 32 := by
        omega
      obtain ⟨ho, ctxO, stmtO, builtO, numbersO, growO, lengthO, getO⟩ :=
        ihO numbersP grows shortO
      have gotS := getS stmtO (growP.trans growO)
      have gotP := getP stmtO growO
      have gotO := getO stmtO (.refl stmtO)
      have last := leaf ctxO stmtO (encodeTripleTerm
        (reencode (renameTerm (ordinalLabel all) s)) (reencode (renameTerm (ordinalLabel all) p))
        (reencode (renameTerm (ordinalLabel all) o))) (by simp only [reencode] at short; omega)
      refine ⟨_, ctxO, _, ?_, numbersO, ((growS.trans growP).trans growO).trans last.1, ?_,
        last.2.2⟩
      · simp only [build, builtS, builtP, builtO, Option.bind_eq_bind, Option.bind_some, gotS,
          gotP, gotO, put, Option.pure_def]
      · rw [last.2.1]
        simp only [reencode]
        omega
  | _ => exact ⟨_, _, _, rfl, numbers, leaf ctx stmt _ short⟩

/-- Too short by 2^32 bytes at least. -/
def Short (got wanted : Bytes) : Prop := got.length + 2 ^ 32 ≤ wanted.length

/-- What a handle gives for a term: never more bytes than the term has, and if the arena was
short before, the term itself with the arena short behind it or a `Short` one. -/
structure Got (before behind : Arena) (got : Bytes) (v : TermView) : Prop where
  length_le : got.length ≤ (reencode v).length
  length_lt : got.length < 2 ^ 32
  exact_or : before.bytes.length < 2 ^ 32 →
    (got = reencode v ∧ behind.bytes.length < 2 ^ 32 ∧
        behind.bytes.length = before.bytes.length + termArena v) ∨
      Short got (reencode v)

/-- Appended to a short arena, bytes come back with the arena still short, or too short. -/
theorem get_or_short {stmt later : Arena} {bytes got : Bytes}
    (behind : (stmt.append bytes).Grows later)
    (read : later.get ((stmt.append bytes).handleFrom stmt.mark) = some got)
    (short : stmt.bytes.length < 2 ^ 32) :
    got = bytes ∧ (stmt.append bytes).bytes.length < 2 ^ 32 ∨ Short got bytes := by
  by_cases fits : stmt.bytes.length + bytes.length < 2 ^ 32
  · refine .inl ⟨Option.some.inj (read.symm.trans (get_handle behind fits)), ?_⟩
    rw [Arena.append, List.length_append]
    exact fits
  · exact .inr ((length_get_handle read).2.2 short (by omega))

/-- A leaf takes its own bytes. -/
theorem got_leaf {stmt later : Arena} {v : TermView} {bytes got : Bytes}
    (encoded : reencode v = bytes) (leaf : termArena v = bytes.length)
    (behind : (stmt.append bytes).Grows later)
    (read : later.get ((stmt.append bytes).handleFrom stmt.mark) = some got) :
    Got stmt (stmt.append bytes) got v := by
  subst encoded
  obtain ⟨le, lt, -⟩ := length_get_handle read
  refine ⟨le, lt, fun short => (get_or_short behind read short).imp_left ?_⟩
  rintro ⟨same, shortBehind⟩
  exact ⟨same, shortBehind, by rw [leaf, Arena.append, List.length_append]⟩

/-- By induction on the term: whatever building it leaves, a handle that still gives bytes
gives the term or a `Short` one. -/
theorem got_of_build {all : List String} {v : TermView} {ctx : TermCtx} {stmt : Arena}
    {seen : List String} (numbers : Numbers ctx seen) (grows : seeTerm seen v <+: all)
    {h : H} {ctx' : TermCtx} {stmt' : Arena} (built : build v ctx stmt = some (h, ctx', stmt')) :
    Numbers ctx' (seeTerm seen v) ∧ stmt.Grows stmt' ∧
      ∀ later got, stmt'.Grows later → later.get h = some got →
        Got stmt stmt' got (renameTerm (ordinalLabel all) v) := by
  induction v generalizing ctx stmt seen h ctx' stmt' with
  | blankNode label =>
      obtain ⟨ordinal, next⟩ := numbers.internalLabel label
      have bytes : blankOrdinal ctx.labelNs "s" (ctx.internalLabel label).1 =
          reencode (renameTerm (ordinalLabel all) (.blankNode label)) := by
        rw [numbers.labelNs, ordinal, blankOrdinal_eq grows]
        rfl
      rw [build, bytes] at built
      cases built
      exact ⟨next, stmt.grows_append _, fun later got behind read => got_leaf rfl rfl behind read⟩
  | tripleTerm s p o ihS ihP ihO =>
      simp only [build, Option.bind_eq_bind, Option.bind_eq_some_iff] at built
      obtain ⟨⟨hs, ctxS, stmtS⟩, builtS, ⟨hp, ctxP, stmtP⟩, builtP, ⟨ho, ctxO, stmtO⟩, builtO,
        sb, gotS, pb, gotP, ob, gotO, last⟩ := built
      cases last
      have growsP : seeTerm (seeTerm seen s) p <+: all := (seeTerm_grows o _).trans grows
      obtain ⟨numbersS, growS, readS⟩ := ihS numbers ((seeTerm_grows p _).trans growsP) builtS
      obtain ⟨numbersP, growP, readP⟩ := ihP numbersS growsP builtP
      obtain ⟨numbersO, growO, readO⟩ := ihO numbersP grows builtO
      have isS := readS stmtO sb (growP.trans growO) gotS
      have isP := readP stmtO pb growO gotP
      have isO := readO stmtO ob (.refl stmtO) gotO
      refine ⟨numbersO, ((growS.trans growP).trans growO).trans (stmtO.grows_append _), ?_⟩
      intro later got behind read
      obtain ⟨le, lt, -⟩ := length_get_handle read
      have monoS := Varint.length_write_mono isS.length_le
      have monoP := Varint.length_write_mono isP.length_le
      have monoO := Varint.length_write_mono isO.length_le
      have leS := isS.length_le
      have leP := isP.length_le
      have leO := isO.length_le
      have lengthGot := length_encodeTripleTerm sb pb ob
      have lengthWanted := length_encodeTripleTerm
        (reencode (renameTerm (ordinalLabel all) s)) (reencode (renameTerm (ordinalLabel all) p))
        (reencode (renameTerm (ordinalLabel all) o))
      refine ⟨?_, lt, fun short => ?_⟩
      · simp only [renameTerm, reencode]
        omega
      simp only [renameTerm, reencode, termArena]
      rcases isS.exact_or short with ⟨sameS, shortS, sizeS⟩ | shortS
      · rcases isP.exact_or shortS with ⟨sameP, shortP, sizeP⟩ | shortP
        · rcases isO.exact_or shortP with ⟨sameO, shortO, sizeO⟩ | shortO
          · rw [sameS, sameP, sameO] at behind read ⊢
            refine (get_or_short behind read shortO).imp_left ?_
            rintro ⟨same, shortBehind⟩
            refine ⟨same, shortBehind, ?_⟩
            rw [Arena.append, List.length_append, sizeO, sizeP, sizeS]
            omega
          · unfold Short at *
            omega
        · unfold Short at *
          omega
      · unfold Short at *
        omega
  | _ =>
      cases built
      exact ⟨numbers, stmt.grows_append _,
        fun later got behind read => got_leaf rfl rfl behind read⟩

/-! ## Statements -/

theorem buildGraph_of_short {all : List String} {g : Option TermView} {ctx : TermCtx}
    {stmt : Arena} {seen : List String} (numbers : Numbers ctx seen)
    (grows : seeGraph seen g <+: all)
    (short : stmt.bytes.length + (g.map (renameTerm (ordinalLabel all))).elim 0 termArena <
      2 ^ 32) :
    ∃ h ctx' stmt', buildGraph g ctx stmt = some (h, ctx', stmt') ∧
      Numbers ctx' (seeGraph seen g) ∧ stmt.Grows stmt' ∧
      QuadBuf.getGraph stmt' h = some ((g.map (renameTerm (ordinalLabel all))).map reencode) := by
  cases g with
  | none => exact ⟨none, ctx, stmt, rfl, numbers, .refl stmt, rfl⟩
  | some g =>
      obtain ⟨h, ctx', stmt', built, numbers', grow, -, get⟩ := build_of_short numbers grows short
      refine ⟨some h, ctx', stmt', ?_, numbers', grow, ?_⟩
      · simp only [buildGraph, built, Option.bind_eq_bind, Option.bind_some, Option.pure_def]
      · simp only [QuadBuf.getGraph, get stmt' (.refl stmt'), Option.map_some]

theorem buildQuad_of_short {all : List String} {q : QuadView} {ctx : TermCtx}
    {seen : List String} (numbers : Numbers ctx seen) (grows : seeQuad seen q <+: all)
    (short : (q.rename (ordinalLabel all)).arena < 2 ^ 32) :
    ∃ ctx', buildQuad q ctx = some ((q.rename (ordinalLabel all)).encode, ctx') ∧
      Numbers ctx' (seeQuad seen q) := by
  simp only [QuadView.arena, QuadView.rename] at short
  have growsO := (seeGraph_grows q.g _).trans grows
  have growsP := (seeTerm_grows q.o _).trans growsO
  have growsS := (seeTerm_grows q.p _).trans growsP
  have none_ : Arena.empty.bytes.length = 0 := rfl
  have shortS : Arena.empty.bytes.length + termArena (renameTerm (ordinalLabel all) q.s) <
      2 ^ 32 := by omega
  obtain ⟨hs, ctxS, stmtS, builtS, numbersS, -, lengthS, getS⟩ :=
    build_of_short numbers growsS shortS
  have shortP : stmtS.bytes.length + termArena (renameTerm (ordinalLabel all) q.p) < 2 ^ 32 := by
    omega
  obtain ⟨hp, ctxP, stmtP, builtP, numbersP, growP, lengthP, getP⟩ :=
    build_of_short numbersS growsP shortP
  have shortO : stmtP.bytes.length + termArena (renameTerm (ordinalLabel all) q.o) < 2 ^ 32 := by
    omega
  obtain ⟨ho, ctxO, stmtO, builtO, numbersO, growO, lengthO, getO⟩ :=
    build_of_short numbersP growsO shortO
  have shortG : stmtO.bytes.length +
      (q.g.map (renameTerm (ordinalLabel all))).elim 0 termArena < 2 ^ 32 := by omega
  obtain ⟨hg, ctxG, stmtG, builtG, numbersG, growG, getG⟩ :=
    buildGraph_of_short numbersO grows shortG
  refine ⟨ctxG, ?_, numbersG⟩
  simp only [buildQuad, builtS, builtP, builtO, builtG, slices, getG,
    getS stmtG (growP.trans (growO.trans growG)), getP stmtG (growO.trans growG), getO stmtG growG,
    Option.bind_eq_bind, Option.bind_some, Option.pure_def]
  rfl

/-- Some term of the record is too short for the quad. -/
def QuadRec.Short (got : QuadRec) (q : QuadView) : Prop :=
  Turtle.Short got.s (reencode q.s) ∨ Turtle.Short got.p (reencode q.p) ∨
    Turtle.Short got.o (reencode q.o) ∨
    ∃ g, q.g = some g ∧ Turtle.Short (got.g.getD []) (reencode g)

theorem got_of_buildGraph {all : List String} {g : Option TermView} {ctx : TermCtx}
    {stmt : Arena} {seen : List String} (numbers : Numbers ctx seen)
    (grows : seeGraph seen g <+: all) {h : Option H} {ctx' : TermCtx} {stmt' : Arena}
    (built : buildGraph g ctx stmt = some (h, ctx', stmt')) {got : Option Bytes}
    (read : QuadBuf.getGraph stmt' h = some got) :
    Numbers ctx' (seeGraph seen g) ∧ stmt.Grows stmt' ∧ (got.getD []).length < 2 ^ 32 ∧
      (stmt.bytes.length < 2 ^ 32 →
        (got = (g.map (renameTerm (ordinalLabel all))).map reencode ∧
            stmt.bytes.length + (g.map (renameTerm (ordinalLabel all))).elim 0 termArena <
              2 ^ 32) ∨
          ∃ v, g.map (renameTerm (ordinalLabel all)) = some v ∧
            Turtle.Short (got.getD []) (reencode v)) := by
  cases g with
  | none =>
      cases built
      cases read
      exact ⟨numbers, .refl stmt, by decide, fun short => .inl ⟨rfl, short⟩⟩
  | some g =>
      simp only [buildGraph, Option.bind_eq_bind, Option.bind_eq_some_iff] at built
      obtain ⟨⟨h, ctxG, stmtG⟩, built, last⟩ := built
      cases last
      simp only [QuadBuf.getGraph, Option.map_eq_some_iff] at read
      obtain ⟨bytes, read, rfl⟩ := read
      obtain ⟨numbers', grow, reads⟩ := got_of_build numbers grows built
      have is := reads stmtG bytes (.refl stmtG) read
      refine ⟨numbers', grow, is.length_lt, fun short => ?_⟩
      refine (is.exact_or short).imp ?_ fun isShort => ⟨_, rfl, isShort⟩
      rintro ⟨same, shortBehind, size⟩
      refine ⟨by simp [same], ?_⟩
      simp only [Option.map_some, Option.elim_some]
      omega

/-- Whatever a statement records is the quad, with its arena short, or a `Short` record. -/
theorem record_of_buildQuad {all : List String} {q : QuadView} {ctx : TermCtx}
    {seen : List String} (numbers : Numbers ctx seen) (grows : seeQuad seen q <+: all)
    {record : QuadRec} {ctx' : TermCtx} (built : buildQuad q ctx = some (record, ctx')) :
    Numbers ctx' (seeQuad seen q) ∧ record.Small ∧
      ((q.rename (ordinalLabel all)).arena < 2 ^ 32 ∧
          record = (q.rename (ordinalLabel all)).encode ∨
        record.Short (q.rename (ordinalLabel all))) := by
  simp only [buildQuad, slices, Option.bind_eq_bind, Option.bind_eq_some_iff] at built
  obtain ⟨⟨hs, ctxS, stmtS⟩, builtS, ⟨hp, ctxP, stmtP⟩, builtP, ⟨ho, ctxO, stmtO⟩, builtO,
    ⟨hg, ctxG, stmtG⟩, builtG, sliced, ⟨gb, gotG, sb, gotS, pb, gotP, ob, gotO, rfl'⟩, last⟩ :=
      built
  cases rfl'
  cases last
  have growsO := (seeGraph_grows q.g _).trans grows
  have growsP := (seeTerm_grows q.o _).trans growsO
  have growsS := (seeTerm_grows q.p _).trans growsP
  obtain ⟨numbersS, -, readS⟩ := got_of_build numbers growsS builtS
  obtain ⟨numbersP, growP, readP⟩ := got_of_build numbersS growsP builtP
  obtain ⟨numbersO, growO, readO⟩ := got_of_build numbersP growsO builtO
  obtain ⟨numbersG, growG, smallG, orG⟩ := got_of_buildGraph numbersO grows builtG gotG
  have isS := readS stmtG sb (growP.trans (growO.trans growG)) gotS
  have isP := readP stmtG pb (growO.trans growG) gotP
  have isO := readO stmtG ob growG gotO
  refine ⟨numbersG, ⟨isS.length_lt, isP.length_lt, isO.length_lt, smallG⟩, ?_⟩
  rcases isS.exact_or (by decide) with ⟨sameS, shortS, sizeS⟩ | shortS
  · rcases isP.exact_or shortS with ⟨sameP, shortP, sizeP⟩ | shortP
    · rcases isO.exact_or shortP with ⟨sameO, shortO, sizeO⟩ | shortO
      · rcases orG shortO with ⟨sameG, sizeG⟩ | shortG
        · have none_ : Arena.empty.bytes.length = 0 := rfl
          refine .inl ⟨?_, by rw [sameS, sameP, sameO, sameG]; rfl⟩
          simp only [QuadView.arena, QuadView.rename]
          simp only at sizeS sizeP sizeO sizeG
          omega
        · exact .inr (.inr (.inr (.inr shortG)))
      · exact .inr (.inr (.inr (.inl shortO)))
    · exact .inr (.inr (.inl shortP))
  · exact .inr (.inl shortS)

end Graphy.Turtle
