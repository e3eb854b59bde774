import Graphy.Core.Proofs.Rfc3986
import Graphy.Core.Proofs.Text

/-!
# What the parser of references accepts

The parser cuts a text at its delimiters and checks each part.  So it accepts the
recomposition of parts that are valid and tell themselves apart, and nothing else.
-/

namespace Graphy.Iri

open Rfc3986

/-- The text after and before the first delimiter. -/
def cut (c : Char) (s : List Char) : Option (List Char) × List Char :=
  match splitOnce c s with
  | none => (none, s)
  | some (before, after) => (some after, before)

/-- The parts of a text by their delimiters. -/
def partsOf (s : List Char) : IriParts where
  scheme := (splitScheme (cut '?' (cut '#' s).2).2).1
  authority := (splitAuthority (splitScheme (cut '?' (cut '#' s).2).2).2).1
  path := (splitAuthority (splitScheme (cut '?' (cut '#' s).2).2).2).2
  query := (cut '?' (cut '#' s).2).1
  fragment := (cut '#' s).1

/-- What the parser checks of the parts. -/
structure Checked (iri : String) (p : IriParts) : Prop where
  delimiter : ∀ f ∈ p.fragment, '#' ∉ f
  authority : ∀ a ∈ p.authority, validateAuthority iri a = .ok () ∧
    (p.path = [] ∨ p.path.head? = some '/')
  relative : p.authority = none → p.scheme = none → ':' ∉ p.path.takeWhile fun c => c != '/'
  path : validateComponent iri p.path .path = .ok ()
  query : ∀ q ∈ p.query, validateComponent iri q .queryOrFragment = .ok ()
  fragment : ∀ f ∈ p.fragment, validateComponent iri f .queryOrFragment = .ok ()

theorem checked_iff {iri : String} {p : IriParts} :
    Checked iri p ↔ (∀ f ∈ p.fragment, '#' ∉ f) ∧
      (∀ a ∈ p.authority, validateAuthority iri a = .ok () ∧
        (!p.path.isEmpty && p.path.head? != some '/') = false) ∧
      (p.authority = none → p.scheme = none →
        (p.path.takeWhile fun c => c != '/').contains ':' = false) ∧
      validateComponent iri p.path .path = .ok () ∧
      (∀ q ∈ p.query, validateComponent iri q .queryOrFragment = .ok ()) ∧
      (∀ f ∈ p.fragment, validateComponent iri f .queryOrFragment = .ok ()) := by
  have rooted : (!p.path.isEmpty && p.path.head? != some '/') = false ↔
      p.path = [] ∨ p.path.head? = some '/' := by
    rw [Bool.and_eq_false_iff, Bool.not_eq_false', List.isEmpty_iff, bne_eq_false_iff_eq]
  have relative : (p.path.takeWhile fun c => c != '/').contains ':' = false ↔
      ':' ∉ p.path.takeWhile fun c => c != '/' := by
    rw [Bool.eq_false_iff, ne_eq, List.contains_iff_mem]
  rw [rooted, relative]
  exact ⟨fun h => ⟨h.delimiter, h.authority, h.relative, h.path, h.query, h.fragment⟩,
    fun h => ⟨h.1, h.2.1, h.2.2.1, h.2.2.2.1, h.2.2.2.2.1, h.2.2.2.2.2⟩⟩

/-- The checks of the parser once the text is cut. -/
def checkParts (iri : String) (p : IriParts) : Except TermError IriParts := do
  match p.authority with
  | some authority => do
      validateAuthority iri authority
      if !p.path.isEmpty && p.path.head? != some '/' then
        throw (.invalidIri iri 0 "authority path must be empty or begin with '/'")
  | none =>
      if p.scheme.isNone then
        let first := p.path.takeWhile fun c => c != '/'
        if first.contains ':' then
          throw (.invalidIri iri (utf8Len (first.takeWhile fun c => c != ':'))
            "relative first path segment contains ':'")
  validateComponent iri p.path .path
  if let some query := p.query then validateComponent iri query .queryOrFragment
  if let some fragment := p.fragment then validateComponent iri fragment .queryOrFragment
  return p

/-- A check before the rest. -/
theorem seq_eq_ok {α : Type} {m : Except TermError Unit} {k : Except TermError α} {a : α} :
    (m.bind fun _ => k) = .ok a ↔ m = .ok () ∧ k = .ok a := by
  cases m with
  | error e => simp [Except.bind]
  | ok u => simp [Except.bind]

/-- A check that refuses the text, before the rest. -/
theorem guard_eq_ok {α : Type} {c : Bool} {e : TermError} {k : Unit → Except TermError α}
    {a : α} :
    (if c = true then (Except.error e).bind k else k ()) = .ok a ↔ c = false ∧ k () = .ok a := by
  cases c with
  | true => simp [Except.bind]
  | false => simp

theorem checkParts_eq_ok {iri : String} {p r : IriParts} :
    checkParts iri p = .ok r ↔
      (∀ a ∈ p.authority, validateAuthority iri a = .ok () ∧
        (!p.path.isEmpty && p.path.head? != some '/') = false) ∧
      (p.authority = none → p.scheme = none →
        (p.path.takeWhile fun c => c != '/').contains ':' = false) ∧
      validateComponent iri p.path .path = .ok () ∧
      (∀ q ∈ p.query, validateComponent iri q .queryOrFragment = .ok ()) ∧
      (∀ f ∈ p.fragment, validateComponent iri f .queryOrFragment = .ok ()) ∧ p = r := by
  obtain ⟨scheme, authority, path, query, fragment⟩ := p
  unfold checkParts
  simp only [bind, pure, Except.pure, throw, throwThe, MonadExceptOf.throw]
  have absent {P : List Char → Prop} : (∀ a ∈ (none : Option (List Char)), P a) ↔ True := by simp
  have given {P : List Char → Prop} {c : List Char} : (∀ a ∈ some c, P a) ↔ P c := by simp
  cases authority with
  | none =>
      cases scheme with
      | none =>
          simp only [Option.isNone_none, if_true, guard_eq_ok]
          cases query <;> cases fragment <;>
            simp only [seq_eq_ok, absent, given, true_and, forall_const, Except.ok.injEq]
      | some s =>
          simp only [Option.isNone_some, Bool.false_eq_true, if_false]
          cases query <;> cases fragment <;>
            simp only [seq_eq_ok, absent, given, true_and, forall_const, Except.ok.injEq,
              reduceCtorEq, false_imp_iff]
  | some a =>
      cases query <;> cases fragment <;>
        simp only [seq_eq_ok, guard_eq_ok, absent, given, true_and, and_assoc, Except.ok.injEq,
          reduceCtorEq, false_imp_iff]

theorem parseReference_eq_ok {iri : String} {p : IriParts} :
    parseReference iri = .ok p ↔ findForbidden 0 iri.toList = none ∧
      percentComplete iri 0 iri.toList = .ok () ∧ p = partsOf iri.toList ∧
      Checked iri (partsOf iri.toList) := by
  have checks (c : IriParts) : checkParts iri c = .ok p ∧ (∀ f ∈ c.fragment, '#' ∉ f) ↔
      p = c ∧ Checked iri c := by
    rw [checkParts_eq_ok, checked_iff]
    tauto
  unfold parseReference
  simp only [bind, Except.bind, pure, Except.pure, throw, throwThe, MonadExceptOf.throw]
  cases forbidden : findForbidden 0 iri.toList with
  | some pos => simp
  | none =>
      cases complete : percentComplete iri 0 iri.toList with
      | error e => simp
      | ok u =>
          simp only [true_and]
          rw [← checks]
          unfold partsOf cut
          cases fragment : splitOnce '#' iri.toList with
          | none =>
              have clear (o : Except TermError IriParts) :
                  (o = .ok p ∧ ∀ f ∈ (none : Option (List Char)), '#' ∉ f) ↔ o = .ok p :=
                and_iff_left (by simp)
              simp only [clear]
              cases query : splitOnce '?' iri.toList with
              | none => exact Iff.rfl
              | some q => exact Iff.rfl
          | some r =>
              obtain ⟨before, f⟩ := r
              by_cases twice : f.contains '#' = true
              · simp [List.contains_iff_mem.mp twice]
              · have once : ∀ g ∈ some f, '#' ∉ g := by
                  rintro g same
                  cases same
                  exact fun inside => twice (List.contains_iff_mem.mpr inside)
                simp only [if_neg twice]
                rw [and_iff_left (by exact once)]
                cases query : splitOnce '?' before with
                | none => exact Iff.rfl
                | some q => exact Iff.rfl

/-- The check of an authority reads the reference only for its message. -/
theorem validateAuthority_any {iri : String} {a : List Char}
    (h : validateAuthority iri a = .ok ()) (iri' : String) : validateAuthority iri' a = .ok () := by
  unfold validateAuthority validateAsciiComponent at h ⊢
  simp only [bind, pure, Except.pure, Except.bind] at h ⊢
  generalize rsplitOnce '@' a = at_ at h ⊢
  rcases at_ with _ | ⟨userinfo, host⟩
  case' some =>
    simp only at h ⊢
    cases user : findRefused (fun c => isIunreserved c || isSubDelim c || c == ':') 0 userinfo with
    | some i => simp [user] at h
    | none => ?_
    simp only [user] at h
  all_goals
    simp only at h ⊢
    split <;> simp only at h
    · -- an address in brackets, and what follows them
      split
      · simp_all
      · split
        · simp_all
        · split
          · split <;> simp_all
          · split
            · split <;> simp_all
            · simp_all
          · simp_all
    · -- a name, and a port
      split
      · simp_all
      · split
        · split <;> simp_all
        · split
          · simp_all
          · split
            · simp_all
            · split <;> simp_all

end Graphy.Iri
