import Graphy.Interop.JsonLd
import Graphy.Succinct.Proofs.Serial

/-!
# When one pass expands a context

A pass expands every definition once, so it does what it should exactly when no definition
needs more and none that is expanded already is expanded again.
-/

namespace Graphy.JsonLd

/-! ## Expansion -/

theorem splitOnce_eq {c : Char} {s a b : Text} (split : splitOnce c s = some (a, b)) :
    s = a ++ c :: b := by
  rcases splitOnce_cases c s with ⟨-, none⟩ | ⟨a', b', same, -, some⟩
  · cases none.symm.trans split
  · cases some.symm.trans split
    exact same

section Expansion

variable {definitions : Context} {value name suffix : Text} {definition : TermDefinition}

theorem Prefixed.expand (prefixed : Prefixed definitions value name suffix definition) :
    expandPrefixed definitions value = some (definition.iri ++ suffix) := by
  obtain ⟨split, relative, defined⟩ := prefixed
  rw [expandPrefixed, split]
  change (if "//".toList.isPrefixOf suffix = true then _ else _) = _
  rw [relative, if_neg Bool.false_ne_true, defined]
  rfl

theorem expand_cases (definitions : Context) (value : Text) :
    expandPrefixed definitions value = none ∨
      ∃ name suffix definition, Prefixed definitions value name suffix definition := by
  rw [expandPrefixed]
  cases split : splitOnce ':' value with
  | none => exact Or.inl rfl
  | some parts =>
      obtain ⟨name, suffix⟩ := parts
      by_cases relative : "//".toList.isPrefixOf suffix = true
      · exact Or.inl (if_pos relative)
      · cases defined : definitions.terms name with
        | none => exact Or.inl (by simp only [if_neg relative, defined, Option.map_none])
        | some definition =>
            exact Or.inr ⟨name, suffix, definition, split, Bool.eq_false_iff.mpr relative, defined⟩

theorem Prefixed.unique {name' suffix' : Text} {definition' : TermDefinition}
    (prefixed : Prefixed definitions value name suffix definition)
    (prefixed' : Prefixed definitions value name' suffix' definition') :
    name = name' ∧ suffix = suffix' ∧ definition = definition' := by
  obtain ⟨split, -, defined⟩ := prefixed
  obtain ⟨split', -, defined'⟩ := prefixed'
  cases split.symm.trans split'
  cases defined.symm.trans defined'
  exact ⟨rfl, rfl, rfl⟩

/-- Expansion gives the value back when the term stands for itself and the colon. -/
theorem Prefixed.expand_self (prefixed : Prefixed definitions value name suffix definition) :
    definition.iri ++ suffix = value ↔ definition.iri = name ++ [':'] := by
  rw [splitOnce_eq prefixed.1, ← List.singleton_append, ← List.append_assoc,
    List.append_left_inj]

/-- Rules that read a value as a term do not read it past the terms. -/
theorem Plain.not_inherited {own : Text → Prop} (plain : Plain definitions own value)
    (defined : definitions.terms value = some definition) : own value :=
  (plain.2 definition defined).1

theorem Plain.not_term {own : Text → Prop} (plain : Plain definitions own value)
    (defined : definitions.terms value = some definition) : definition.iri = value :=
  (plain.2 definition defined).2

theorem Expands.unique {own : Text → Prop} {expanded expanded' : Text}
    (expands : Expands definitions own value expanded)
    (expands' : Expands definitions own value expanded') : expanded = expanded' := by
  induction expands generalizing expanded' with
  | keyword keyword =>
      cases expands' with
      | keyword _ => rfl
      | inheritedTerm word _ _ => exact absurd keyword word
      | term word _ _ _ _ => exact absurd keyword word
      | inherited plain _ _ => exact absurd keyword plain.1
      | through plain _ _ _ => exact absurd keyword plain.1
      | whole plain _ => exact absurd keyword plain.1
  | inheritedTerm word defined old =>
      cases expands' with
      | keyword keyword => exact absurd keyword word
      | inheritedTerm _ defined' _ =>
          cases defined.symm.trans defined'
          rfl
      | term _ _ new _ _ => exact absurd new old
      | inherited plain _ _ => exact absurd (plain.not_inherited defined) old
      | through plain _ _ _ => exact absurd (plain.not_inherited defined) old
      | whole plain _ => exact absurd (plain.not_inherited defined) old
  | term word defined new other further ih =>
      cases expands' with
      | keyword keyword => exact absurd keyword word
      | inheritedTerm _ _ old => exact absurd new old
      | term _ defined' _ _ further' =>
          cases defined.symm.trans defined'
          exact ih further'
      | inherited plain _ _ => exact absurd (plain.not_term defined) other
      | through plain _ _ _ => exact absurd (plain.not_term defined) other
      | whole plain _ => exact absurd (plain.not_term defined) other
  | inherited plain prefixed old =>
      cases expands' with
      | keyword keyword => exact absurd keyword plain.1
      | inheritedTerm _ defined old => exact absurd (plain.not_inherited defined) old
      | term _ defined _ other _ => exact absurd (plain.not_term defined) other
      | inherited _ prefixed' _ =>
          obtain ⟨-, rfl, rfl⟩ := prefixed.unique prefixed'
          rfl
      | through _ prefixed' new _ =>
          obtain ⟨rfl, -, -⟩ := prefixed.unique prefixed'
          exact absurd new old
      | whole _ none => cases none.symm.trans prefixed.expand
  | through plain prefixed new further ih =>
      cases expands' with
      | keyword keyword => exact absurd keyword plain.1
      | inheritedTerm _ defined old => exact absurd (plain.not_inherited defined) old
      | term _ defined _ other _ => exact absurd (plain.not_term defined) other
      | inherited _ prefixed' old =>
          obtain ⟨rfl, -, -⟩ := prefixed.unique prefixed'
          exact absurd new old
      | through _ prefixed' _ further' =>
          obtain ⟨rfl, rfl, rfl⟩ := prefixed.unique prefixed'
          rw [ih further']
      | whole _ none => cases none.symm.trans prefixed.expand
  | whole plain none =>
      cases expands' with
      | keyword keyword => exact absurd keyword plain.1
      | inheritedTerm _ defined old => exact absurd (plain.not_inherited defined) old
      | term _ defined _ other _ => exact absurd (plain.not_term defined) other
      | inherited _ prefixed _ => cases none.symm.trans prefixed.expand
      | through _ prefixed _ _ => cases none.symm.trans prefixed.expand
      | whole _ _ => rfl

end Expansion

/-! ## Collecting -/

/-- What one entry of a context object changes. -/
inductive Change where
  | vocab (v : Option Text)
  | base (v : Option Text)
  | language (v : Option Text)
  | nothing
  | define (term : Text) (definition : TermDefinition)

def Change.apply (context : Context) : Change → Context
  | .vocab v => { context with vocab := v }
  | .base v => { context with base := v }
  | .language v => { context with language := v }
  | .nothing => context
  | .define term definition => context.insert term definition

/-- The change is one that a key makes. -/
def Change.At (key : Text) : Change → Prop
  | .vocab _ => key = "@vocab".toList
  | .base _ => key = "@base".toList
  | .language _ => key = "@language".toList
  | .nothing => True
  | .define term _ => key = term

/-- Changes at different keys commute. -/
theorem Change.apply_comm {a b : Change} {k l : Text} (atK : a.At k) (atL : b.At l) (apart : k ≠ l)
    (context : Context) : b.apply (a.apply context) = a.apply (b.apply context) := by
  cases a <;> cases b <;> try rfl
  case vocab.vocab => exact absurd (atK.trans atL.symm) apart
  case base.base => exact absurd (atK.trans atL.symm) apart
  case language.language => exact absurd (atK.trans atL.symm) apart
  case define.define t _ u _ =>
    have differ : u ≠ t := fun same => apart (atK.trans (same.symm.trans atL.symm))
    simp only [Change.apply, Context.insert, Function.update_comm differ]

section Collect

variable {toLowercase : Text → Text}

theorem termDefinition_cases (toLowercase : Text → Text) (term : Text) (value : Value) :
    (∃ e, termDefinition toLowercase term value = .error e) ∨
      (value = .null ∧ termDefinition toLowercase term value = .ok none) ∨
        value ≠ .null ∧ ∃ d, termDefinition toLowercase term value = .ok (some d) := by
  cases value with
  | null => exact Or.inr (Or.inl ⟨rfl, rfl⟩)
  | string iri => exact Or.inr (Or.inr ⟨Value.noConfusion, _, rfl⟩)
  | object body =>
      cases body : bodyDefinition toLowercase term body with
      | error e => exact Or.inl ⟨e, by rw [termDefinition, body]; rfl⟩
      | ok d =>
          exact Or.inr (Or.inr ⟨Value.noConfusion, d, by rw [termDefinition, body]; rfl⟩)
  | bool | number | array => exact Or.inl ⟨_, rfl⟩

/-- An entry is refused, or makes one change, whatever it is added to. -/
theorem addEntry_cases (toLowercase : Text → Text) (entry : Text × Value) :
    (∃ e, ∀ context, addEntry toLowercase context entry = .error e) ∨
      ∃ change : Change, change.At entry.1 ∧
        (∀ context, addEntry toLowercase context entry = .ok (change.apply context)) ∧
        ∀ t d, change = .define t d → entry.1 ∉ keywords ∧ entry.2 ≠ .null := by
  obtain ⟨key, value⟩ := entry
  by_cases vocab : key = "@vocab".toList
  · refine Or.inr ⟨.vocab value.asStr, vocab, fun context => ?_, fun t d => Change.noConfusion⟩
    rw [addEntry, if_pos vocab]
    rfl
  by_cases base : key = "@base".toList
  · refine Or.inr ⟨.base value.asStr, base, fun context => ?_, fun t d => Change.noConfusion⟩
    rw [addEntry, if_neg vocab, if_pos base]
    rfl
  by_cases language : key = "@language".toList
  · refine Or.inr ⟨.language (value.asStr.map toLowercase), language, fun context => ?_,
      fun t d => Change.noConfusion⟩
    rw [addEntry, if_neg vocab, if_neg base, if_pos language]
    rfl
  by_cases version : key = "@version".toList
  · refine Or.inr ⟨.nothing, trivial, fun context => ?_, fun t d => Change.noConfusion⟩
    rw [addEntry, if_neg vocab, if_neg base, if_neg language, if_pos version]
    rfl
  have plain : key ∉ keywords := by
    simp only [keywords, List.mem_cons, List.not_mem_nil, or_false, not_or]
    exact ⟨vocab, base, language, version⟩
  have added : ∀ context : Context, addEntry toLowercase context (key, value)
      = (termDefinition toLowercase key value).map fun found =>
          (found.map (context.insert key)).getD context := fun context => by
    rw [addEntry, if_neg vocab, if_neg base, if_neg language, if_neg version]
    rcases termDefinition toLowercase key value with e | _ | d <;> rfl
  rcases termDefinition_cases toLowercase key value with
    ⟨e, refused⟩ | ⟨-, nothing⟩ | ⟨some, d, defined⟩
  · exact Or.inl ⟨e, fun context => by rw [added, refused]; rfl⟩
  · exact Or.inr ⟨.nothing, trivial, fun context => by rw [added, nothing]; rfl,
      fun t d => Change.noConfusion⟩
  · exact Or.inr ⟨.define key d, rfl, fun context => by rw [added, defined]; rfl,
      fun _ _ _ => ⟨plain, some⟩⟩

theorem collect_cons (toLowercase : Text → Text) (context : Context) (entry : Text × Value)
    (map : List (Text × Value)) : collect toLowercase context (entry :: map)
      = addEntry toLowercase context entry >>= fun context => collect toLowercase context map :=
  rfl

theorem Change.terms_apply {change : Change} {context : Context} {term : Text}
    (other : ∀ d, change ≠ .define term d) :
    (change.apply context).terms term = context.terms term := by
  cases change with
  | define t d =>
      have apart : term ≠ t := fun same => other d (same ▸ rfl)
      exact Function.update_of_ne apart _ _
  | _ => rfl

/-- Terms that the object does not define stay as they were. -/
theorem collect_terms {context definitions : Context} {map : List (Text × Value)}
    (collected : collect toLowercase context map = .ok definitions) {term : Text}
    (old : ¬ Defines map term) : definitions.terms term = context.terms term := by
  induction map generalizing context with
  | nil =>
      cases collected
      rfl
  | cons entry map ih =>
      rw [collect_cons] at collected
      have later : ¬ Defines map term := fun new => old
        ⟨new.1, new.2.imp fun _ here => ⟨List.mem_cons_of_mem entry here.1, here.2⟩⟩
      rcases addEntry_cases toLowercase entry with ⟨e, refused⟩ | ⟨change, place, changes, defines⟩
      · rw [refused] at collected
        cases collected
      · rw [changes] at collected
        rw [ih collected later, Change.terms_apply]
        rintro d rfl
        obtain ⟨plain, some⟩ := defines term d rfl
        have same : entry.1 = term := place
        exact old ⟨same ▸ plain, entry.2, by rw [← same]; exact List.mem_cons_self, some⟩

/-- Every order of an object's entries collects the same, or is refused. -/
theorem collect_perm {map map' : List (Text × Value)} (perm : map'.Perm map)
    (distinct : (map'.map Prod.fst).Nodup) (context : Context) :
    (collect toLowercase context map').toOption = (collect toLowercase context map).toOption := by
  induction perm generalizing context with
  | nil => rfl
  | cons entry _ ih =>
      rw [List.map_cons, List.nodup_cons] at distinct
      rw [collect_cons, collect_cons]
      rcases addEntry_cases toLowercase entry with ⟨e, refused⟩ | ⟨change, -, changes, -⟩
      · rw [refused]
        rfl
      · rw [changes]
        exact ih distinct.2 (change.apply context)
  | swap x y map =>
      have apart : y.1 ≠ x.1 := by
        rw [List.map_cons, List.map_cons, List.nodup_cons] at distinct
        exact fun same => distinct.1 (same ▸ List.mem_cons_self)
      simp only [collect_cons]
      rcases addEntry_cases toLowercase x with ⟨e, refused⟩ | ⟨a, atX, changes, -⟩ <;>
        rcases addEntry_cases toLowercase y with ⟨e', refused'⟩ | ⟨b, atY, changes', -⟩
      · rw [refused, refused']
        rfl
      · rw [refused, changes', ok_bind, refused]
        rfl
      · rw [changes, refused', ok_bind, refused']
        rfl
      · rw [changes, changes', ok_bind, ok_bind, changes, changes', ok_bind, ok_bind,
          Change.apply_comm atY atX apart]
  | trans first _ ih ih' =>
      rw [ih distinct, ih' ((first.map Prod.fst).nodup_iff.mp distinct)]

end Collect

/-! ## One object -/

section Object

variable {toLowercase : Text → Text}

theorem mergeContext_object (toLowercase : Text → Text) (base : Context)
    (map : List (Text × Value)) : mergeContext toLowercase base (.object map)
      = collect toLowercase base map >>= fun definitions => .ok (secondPass definitions) := by
  rw [mergeContext]
  rfl

theorem toOption_bind_ok {ε α β : Type} (x : Except ε α) (f : α → β) :
    (x >>= fun a => .ok (f a)).toOption = x.toOption.map f := by
  cases x <;> rfl

theorem orderFree (toLowercase : Text → Text) (base : Context) (map : List (Text × Value)) :
    OrderFree toLowercase base map := by
  intro distinct map' perm
  rw [mergeContext_object, mergeContext_object, toOption_bind_ok, toOption_bind_ok,
    collect_perm perm ((perm.map Prod.fst).nodup_iff.mpr distinct) base]

theorem secondPass_terms (definitions : Context) (term : Text) :
    (secondPass definitions).terms term = (definitions.terms term).map fun d =>
      { d with iri := (expandPrefixed definitions d.iri).getD d.iri } := rfl

/-- What a pass makes of a definition that is expanded. -/
theorem secondPass_prefixed {definitions : Context} {term name suffix : Text}
    {d definition : TermDefinition} (defined : definitions.terms term = some d)
    (prefixed : Prefixed definitions d.iri name suffix definition) :
    (secondPass definitions).terms term = some { d with iri := definition.iri ++ suffix } := by
  rw [secondPass_terms, defined, Option.map_some, prefixed.expand, Option.getD_some]

theorem secondPass_whole {definitions : Context} {term : Text} {d : TermDefinition}
    (defined : definitions.terms term = some d)
    (none : expandPrefixed definitions d.iri = Option.none) :
    (secondPass definitions).terms term = some d := by
  rw [secondPass_terms, defined, Option.map_some, none, Option.getD_none]

/-- A pass leaves a definition alone when what it would put for it is the same. -/
theorem secondPass_kept_iff {definitions : Context} {term : Text} :
    (secondPass definitions).terms term = definitions.terms term ↔
      ∀ d name suffix definition, definitions.terms term = some d →
        Prefixed definitions d.iri name suffix definition → definition.iri = name ++ [':'] := by
  constructor
  · intro kept d name suffix definition defined prefixed
    rw [secondPass_prefixed defined prefixed, defined, Option.some.injEq] at kept
    exact prefixed.expand_self.mp (congrArg TermDefinition.iri kept)
  · intro same
    cases defined : definitions.terms term with
    | none => rw [secondPass_terms, defined, Option.map_none]
    | some d =>
        rcases expand_cases definitions d.iri with none | ⟨name, suffix, definition, prefixed⟩
        · exact secondPass_whole defined none
        · rw [secondPass_prefixed defined prefixed,
            prefixed.expand_self.mpr (same d name suffix definition defined prefixed)]

theorem stable_iff (toLowercase : Text → Text) (context : Context) :
    Stable toLowercase context ↔
      ∀ term d name suffix definition, context.terms term = some d →
        Prefixed context d.iri name suffix definition → definition.iri = name ++ [':'] := by
  have empty : mergeContext toLowercase context (.object []) = .ok (secondPass context) :=
    mergeContext_object toLowercase context []
  rw [Stable, empty, Except.ok.injEq]
  constructor
  · intro same term
    exact secondPass_kept_iff.mp (congrFun (congrArg Context.terms same) term)
  · intro kept
    have terms : (secondPass context).terms = context.terms :=
      funext fun term => secondPass_kept_iff.mpr (kept term)
    change { context with terms := (secondPass context).terms } = context
    rw [terms]

/-- A pass gives own terms their full expansions exactly when it finds them whole, or one step away
from their full expansions. -/
theorem expanded_iff {definitions : Context} {own : Text → Prop} {term : Text} {d : TermDefinition}
    (defined : definitions.terms term = some d) :
    (∃ iri, (secondPass definitions).terms term = some { d with iri := iri } ∧
      Expands definitions own d.iri iri) ↔
    (expandPrefixed definitions d.iri = none → Expands definitions own d.iri d.iri) ∧
      ∀ name suffix definition, Prefixed definitions d.iri name suffix definition →
        (Plain definitions own d.iri → own name →
          Expands definitions own definition.iri definition.iri) ∧
        (¬ Plain definitions own d.iri →
          Expands definitions own d.iri (definition.iri ++ suffix)) := by
  rcases expand_cases definitions d.iri with none | ⟨name, suffix, definition, prefixed⟩
  · rw [secondPass_whole defined none]
    constructor
    · rintro ⟨iri, merged, expands⟩
      have same : d.iri = iri := congrArg TermDefinition.iri (Option.some.inj merged)
      refine ⟨fun _ => ?_, fun _ _ _ prefixed => ?_⟩
      · rwa [← same] at expands
      · cases none.symm.trans prefixed.expand
    · exact fun alone => ⟨d.iri, rfl, alone.1 none⟩
  · rw [secondPass_prefixed defined prefixed]
    constructor
    · rintro ⟨iri, merged, expands⟩
      have same : definition.iri ++ suffix = iri :=
        congrArg TermDefinition.iri (Option.some.inj merged)
      subst same
      refine ⟨fun none => ?_, fun _ _ _ prefixed' => ?_⟩
      · cases none.symm.trans prefixed.expand
      obtain ⟨rfl, rfl, rfl⟩ := prefixed.unique prefixed'
      refine ⟨fun plain new => ?_, fun _ => expands⟩
      -- Read past the terms, the value expands through the term before its colon.
      generalize hv : d.iri = value at expands prefixed plain
      generalize hx : definition.iri ++ suffix = full at expands
      cases expands with
      | keyword keyword => exact absurd keyword plain.1
      | inheritedTerm _ defined old => exact absurd (plain.not_inherited defined) old
      | term _ defined _ other _ => exact absurd (plain.not_term defined) other
      | inherited _ prefixed'' old =>
          obtain ⟨rfl, -, -⟩ := prefixed.unique prefixed''
          exact absurd new old
      | through _ prefixed'' _ further =>
          obtain ⟨rfl, rfl, rfl⟩ := prefixed.unique prefixed''
          rwa [← List.append_cancel_right hx] at further
      | whole _ none => cases none.symm.trans prefixed.expand
    · rintro ⟨-, each⟩
      obtain ⟨direct, shadowed⟩ := each name suffix definition prefixed
      refine ⟨_, rfl, ?_⟩
      by_cases plain : Plain definitions own d.iri
      · by_cases new : own name
        · exact .through plain prefixed new (direct plain new)
        · exact .inherited plain prefixed new
      · exact shadowed plain

/-- Own terms get their full expansions, and inherited ones stay, exactly when one pass is enough
for the own ones and changes none of the inherited ones. -/
theorem complete_iff {base definitions : Context} {own : Text → Prop}
    (inherited : ∀ term, ¬ own term → definitions.terms term = base.terms term) :
    Complete base definitions own (secondPass definitions) ↔
      (∀ term d, own term → definitions.terms term = some d →
        expandPrefixed definitions d.iri = none → Expands definitions own d.iri d.iri) ∧
      (∀ term d name suffix definition, own term → own name → definitions.terms term = some d →
        Plain definitions own d.iri → Prefixed definitions d.iri name suffix definition →
          Expands definitions own definition.iri definition.iri) ∧
      (∀ term d name suffix definition, own term → definitions.terms term = some d →
        ¬ Plain definitions own d.iri → Prefixed definitions d.iri name suffix definition →
          Expands definitions own d.iri (definition.iri ++ suffix)) ∧
      ∀ term d name suffix definition, ¬ own term → definitions.terms term = some d →
        Prefixed definitions d.iri name suffix definition → definition.iri = name ++ [':'] := by
  constructor
  · intro complete
    have each := fun term d new defined =>
      (expanded_iff defined).mp (complete.expanded term d new defined)
    refine ⟨fun term d new defined => (each term d new defined).1,
      fun term d name suffix definition new through defined plain prefixed =>
        ((each term d new defined).2 name suffix definition prefixed).1 plain through,
      fun term d name suffix definition new defined shadow prefixed =>
        ((each term d new defined).2 name suffix definition prefixed).2 shadow, ?_⟩
    intro term d name suffix definition old
    have kept := (complete.kept term old).trans (inherited term old).symm
    exact secondPass_kept_iff.mp kept d name suffix definition
  · rintro ⟨whole, direct, shadowed, kept⟩
    refine ⟨?_, ?_, rfl⟩
    · intro term d new defined
      exact (expanded_iff defined).mpr ⟨whole term d new defined,
        fun name suffix definition prefixed =>
          ⟨fun plain through => direct term d name suffix definition new through defined plain prefixed,
            fun shadow => shadowed term d name suffix definition new defined shadow prefixed⟩⟩
    · intro term old
      rw [← inherited term old]
      exact secondPass_kept_iff.mpr fun d name suffix definition =>
        kept term d name suffix definition old

section Complete

variable {base definitions : Context} {own : Text → Prop}
variable (complete : Complete base definitions own (secondPass definitions))
variable (inherited : ∀ term, ¬ own term → definitions.terms term = base.terms term)
include complete inherited

/-- What is merged completely has the full expansions. -/
theorem Complete.fullIri {term full : Text} :
    FullIri definitions own term full ↔
      ∃ r, (secondPass definitions).terms term = some r ∧ r.iri = full := by
  constructor
  · rintro ⟨d, defined, ⟨new, expands⟩ | ⟨old, rfl⟩⟩
    · obtain ⟨iri, merged, expands'⟩ := complete.expanded term d new defined
      exact ⟨_, merged, expands'.unique expands⟩
    · exact ⟨d, by rw [complete.kept term old, ← inherited term old, defined], rfl⟩
  · rintro ⟨r, merged, rfl⟩
    obtain ⟨d, defined, -⟩ := Option.map_eq_some_iff.mp merged
    refine ⟨d, defined, ?_⟩
    by_cases new : own term
    · obtain ⟨iri, merged', expands⟩ := complete.expanded term d new defined
      cases merged.symm.trans merged'
      exact Or.inl ⟨new, expands⟩
    · have kept := (complete.kept term new).trans (inherited term new).symm
      cases merged.symm.trans (kept.trans defined)
      exact Or.inr ⟨new, rfl⟩

/-- In a context that is complete, `expandIri` gives a key its full expansion, or drops it where
there is no vocabulary to put before it. -/
theorem Complete.expandIri {value full : Text} (word : value.head? ≠ some '@')
    (expands : Expands definitions own value full) :
    JsonLd.expandIri (secondPass definitions) value true = .ok (some full) ∨
      JsonLd.expandIri (secondPass definitions) value true = .ok none ∧ full = value := by
  have asTerm : ∀ definition, definitions.terms value = some definition →
      FullIri definitions own value full →
        JsonLd.expandIri (secondPass definitions) value true = .ok (some full) := by
    intro definition defined fullIri
    obtain ⟨r, merged, rfl⟩ := (complete.fullIri inherited).mp fullIri
    rw [JsonLd.expandIri, if_neg word, merged]
  have ofPlain : Plain definitions own value → ∀ definition,
      definitions.terms value = some definition →
        JsonLd.expandIri (secondPass definitions) value true = .ok (some full) := by
    intro plain definition defined
    obtain ⟨new, same⟩ := plain.2 definition defined
    exact asTerm definition defined ⟨definition, defined, Or.inl ⟨new, by rwa [same]⟩⟩
  have undefined : definitions.terms value = none →
      (secondPass definitions).terms value = none := fun none => by
    rw [secondPass_terms, none, Option.map_none]
  cases expands with
  | keyword keyword => exact absurd keyword word
  | inheritedTerm _ defined old =>
      exact Or.inl (asTerm _ defined ⟨_, defined, Or.inr ⟨old, rfl⟩⟩)
  | term _ defined new _ further =>
      exact Or.inl (asTerm _ defined ⟨_, defined, Or.inl ⟨new, further⟩⟩)
  | inherited plain prefixed old =>
      cases defined : definitions.terms value with
      | some definition => exact Or.inl (ofPlain plain definition defined)
      | none =>
          obtain ⟨r, merged, same⟩ := (complete.fullIri inherited).mp
            ⟨_, prefixed.2.2, Or.inr ⟨old, rfl⟩⟩
          have there : Prefixed (secondPass definitions) value _ _ r :=
            ⟨prefixed.1, prefixed.2.1, merged⟩
          rw [JsonLd.expandIri, if_neg word, undefined defined, there.expand, same]
          exact Or.inl rfl
  | through plain prefixed new further =>
      cases defined : definitions.terms value with
      | some definition => exact Or.inl (ofPlain plain definition defined)
      | none =>
          obtain ⟨r, merged, same⟩ := (complete.fullIri inherited).mp
            ⟨_, prefixed.2.2, Or.inl ⟨new, further⟩⟩
          have there : Prefixed (secondPass definitions) value _ _ r :=
            ⟨prefixed.1, prefixed.2.1, merged⟩
          rw [JsonLd.expandIri, if_neg word, undefined defined, there.expand, same]
          exact Or.inl rfl
  | whole plain none =>
      cases defined : definitions.terms value with
      | some definition => exact Or.inl (ofPlain plain definition defined)
      | none =>
          have still : expandPrefixed (secondPass definitions) value = Option.none := by
            rcases expand_cases (secondPass definitions) value with still | ⟨_, _, _, there⟩
            · exact still
            · obtain ⟨d, defined, -⟩ := Option.map_eq_some_iff.mp there.2.2
              cases none.symm.trans (Prefixed.expand ⟨there.1, there.2.1, defined⟩)
          rw [JsonLd.expandIri, if_neg word, undefined defined, still, vocabIri]
          by_cases absolute : isAbsoluteIri value = true
          · simp only [absolute, if_true]
            exact Or.inl trivial
          · rw [if_neg absolute]
            have vocab : (secondPass definitions).vocab = definitions.vocab := rfl
            rw [vocab]
            simp only [absolute]
            cases definitions.vocab with
            | none => exact Or.inr ⟨rfl, rfl⟩
            | some vocab => exact Or.inl rfl

theorem Complete.stable_iff (toLowercase : Text → Text) :
    Stable toLowercase (secondPass definitions) ↔
      ∀ term full name suffix full', FullIri definitions own term full →
        FullIri definitions own name full' → splitOnce ':' full = some (name, suffix) →
          "//".toList.isPrefixOf suffix = false → full' = name ++ [':'] := by
  rw [JsonLd.stable_iff]
  constructor
  · intro stable term full name suffix full' first second split relative
    obtain ⟨r, merged, rfl⟩ := (complete.fullIri inherited).mp first
    obtain ⟨r', merged', rfl⟩ := (complete.fullIri inherited).mp second
    exact stable term r name suffix r' merged ⟨split, relative, merged'⟩
  · intro final term r name suffix r' merged prefixed
    obtain ⟨split, relative, merged'⟩ := prefixed
    exact final term r.iri name suffix r'.iri
      ((complete.fullIri inherited).mpr ⟨r, merged, rfl⟩)
      ((complete.fullIri inherited).mpr ⟨r', merged', rfl⟩) split relative

end Complete

theorem meets_iff_onePass (toLowercase : Text → Text) (base : Context)
    (map : List (Text × Value)) :
    Meets toLowercase base map ↔ OnePass toLowercase base map := by
  constructor
  · rintro ⟨-, meets⟩ definitions collected
    have merged : mergeContext toLowercase base (.object map) = .ok (secondPass definitions) := by
      rw [mergeContext_object, collected, ok_bind]
    have inherited : ∀ term, ¬ Defines map term → definitions.terms term = base.terms term :=
      fun _ old => collect_terms collected old
    obtain ⟨complete, stable⟩ := meets definitions _ collected merged
    obtain ⟨whole, direct, shadowed, kept⟩ := (complete_iff inherited).mp complete
    exact ⟨whole, direct, shadowed, kept, (complete.stable_iff inherited toLowercase).mp stable⟩
  · intro onePass
    refine ⟨orderFree toLowercase base map, fun definitions merged collected same => ?_⟩
    rw [mergeContext_object, collected, ok_bind, Except.ok.injEq] at same
    subst same
    have inherited : ∀ term, ¬ Defines map term → definitions.terms term = base.terms term :=
      fun _ old => collect_terms collected old
    obtain ⟨whole, direct, shadowed, kept, final⟩ := onePass definitions collected
    have complete := (complete_iff inherited).mpr ⟨whole, direct, shadowed, kept⟩
    exact ⟨complete, (complete.stable_iff inherited toLowercase).mpr final⟩

end Object

/-! ## Contexts in contexts -/

section Nesting

variable {toLowercase : Text → Text}

theorem Stable.secondPass {context : Context} (stable : Stable toLowercase context) :
    secondPass context = context := by
  have empty : mergeContext toLowercase context (.object []) = .ok (JsonLd.secondPass context) :=
    mergeContext_object toLowercase context []
  rw [Stable, empty, Except.ok.injEq] at stable
  exact stable

theorem stable_default (toLowercase : Text → Text) : Stable toLowercase Context.default :=
  (stable_iff toLowercase _).mpr fun _ _ _ _ _ defined => by cases defined

mutual

/-- Where one pass is enough for every object, the value is resolved. -/
theorem resolves_of_onePass {base merged : Context} (stable : Stable toLowercase base) :
    ∀ {value : Value}, Throughout toLowercase (OnePass toLowercase) base value →
      mergeContext toLowercase base value = .ok merged →
        Resolves toLowercase base value merged ∧ Stable toLowercase merged
  | .null, _, done => by
      rw [mergeContext, (stable_default toLowercase).secondPass] at done
      cases done
      exact ⟨.null, stable_default toLowercase⟩
  | .object map, onePass, done => by
      rw [Throughout] at onePass
      obtain ⟨-, meets⟩ := (meets_iff_onePass toLowercase base map).mpr onePass
      have steps := done
      rw [mergeContext_object] at steps
      obtain ⟨definitions, collected, -⟩ := bind_eq_ok steps
      obtain ⟨complete, stable⟩ := meets definitions merged collected done
      exact ⟨.object collected complete, stable⟩
  | .array parts, onePass, done => by
      rw [Throughout] at onePass
      rw [mergeContext] at done
      obtain ⟨context, parted, same⟩ := bind_eq_ok done
      obtain ⟨all, stable⟩ := resolvesParts_of_onePass stable onePass parted
      have last : secondPass context = merged := Except.ok.inj same
      rw [stable.secondPass] at last
      subst last
      exact ⟨.array all, stable⟩
  | .string _, _, done => by cases done
  | .bool _, _, done => by cases done
  | .number _, _, done => by cases done

theorem resolvesParts_of_onePass {base merged : Context} (stable : Stable toLowercase base) :
    ∀ {parts : List Value}, ThroughoutParts toLowercase (OnePass toLowercase) base parts →
      mergeParts toLowercase base parts = .ok merged →
        ResolvesParts toLowercase base parts merged ∧ Stable toLowercase merged
  | [], _, done => by
      cases done
      exact ⟨.nil, stable⟩
  | part :: parts, onePass, done => by
      rw [ThroughoutParts] at onePass
      rw [mergeParts] at done
      obtain ⟨context, first, others⟩ := bind_eq_ok done
      obtain ⟨resolves, stable⟩ := resolves_of_onePass stable onePass.1 first
      obtain ⟨all, stable⟩ := resolvesParts_of_onePass stable (onePass.2 context first) others
      exact ⟨.cons resolves all, stable⟩

end

end Nesting

/-- Definitions that are their own full expansions and of which none starts with a term and a colon
are settled. -/
theorem settled_of_whole {definitions : Context} {own : Text → Prop}
    (whole : ∀ term d, definitions.terms term = some d →
      expandPrefixed definitions d.iri = none ∧ Expands definitions own d.iri d.iri) :
    Settled definitions own := by
  have never : ∀ {term : Text} {d : TermDefinition}, definitions.terms term = some d →
      ∀ {name suffix : Text} {definition : TermDefinition},
        ¬ Prefixed definitions d.iri name suffix definition := fun defined _ _ _ prefixed => by
    cases (whole _ _ defined).1.symm.trans prefixed.expand
  refine ⟨fun term d _ defined _ => (whole term d defined).2,
    fun _ _ _ _ _ _ _ defined _ prefixed => absurd prefixed (never defined),
    fun _ _ _ _ _ _ defined _ prefixed => absurd prefixed (never defined),
    fun _ _ _ _ _ _ defined prefixed => absurd prefixed (never defined), ?_⟩
  rintro term full name suffix full' ⟨d, defined, full_eq⟩ ⟨d', defined', -⟩ split relative
  have same : full = d.iri := by
    rcases full_eq with ⟨-, expands⟩ | ⟨-, same⟩
    · exact expands.unique (whole term d defined).2
    · exact same
  subst same
  exact absurd ⟨split, relative, defined'⟩ (never defined)

/-- An object's context is right exactly when one pass is enough for it; and wherever that holds
throughout, in contexts of contexts and of nested nodes, what is reached is right. -/
theorem right_iff_onePass (toLowercase : Text → Text) :
    (∀ base map, Meets toLowercase base map ↔ OnePass toLowercase base map) ∧
      ∀ base parts merged, Stable toLowercase base →
        ThroughoutParts toLowercase (OnePass toLowercase) base parts →
          mergeParts toLowercase base parts = .ok merged →
            ResolvesParts toLowercase base parts merged ∧ Stable toLowercase merged :=
  ⟨meets_iff_onePass toLowercase,
    fun _ _ _ stable onePass merged => resolvesParts_of_onePass stable onePass merged⟩

/-- A context with one absolute definition. -/
def absolute : List (Text × Value) := [("a".toList, .string "http://e/".toList)]

/-- One more, defined through it. -/
def prefixedOnce : List (Text × Value) := [("b".toList, .string "a:b".toList)]

theorem onePass_absolute : OnePass id .default absolute := by
  intro definitions collected
  cases collected
  have elsewhere : ∀ term ≠ "a".toList, (Context.default.insert "a".toList
      ⟨"http://e/".toList, none, false, none⟩).terms term = none := fun term other =>
    Function.update_of_ne other _ _
  refine settled_of_whole fun term d defined => ?_
  by_cases same : term = "a".toList
  · subst same
    cases defined
    refine ⟨rfl, .whole ⟨by decide, fun d defined => ?_⟩ rfl⟩
    cases (elsewhere "http://e/".toList (by decide)).symm.trans defined
  · cases (elsewhere term same).symm.trans defined

theorem onePass_prefixedOnce {base : Context} {d : TermDefinition}
    (known : base.terms "a".toList = some d) (iri : d.iri = "http://e/".toList)
    (only : ∀ term ≠ "a".toList, base.terms term = none) : OnePass id base prefixedOnce := by
  intro definitions collected
  cases collected
  have own : ∀ term, Defines prefixedOnce term → term = "b".toList := by
    rintro term ⟨-, value, inside, -⟩
    exact congrArg Prod.fst (List.mem_singleton.mp inside)
  have old : ¬ Defines prefixedOnce "a".toList := fun new => absurd (own _ new) (by decide)
  generalize added : base.insert "b".toList ⟨"a:b".toList, none, false, none⟩ = definitions
  have b : definitions.terms "b".toList = some ⟨"a:b".toList, none, false, none⟩ := by
    rw [← added]
    exact Function.update_self "b".toList _ base.terms
  have other : ∀ term ≠ "b".toList, definitions.terms term = base.terms term := fun term ne => by
    rw [← added]
    exact Function.update_of_ne ne _ base.terms
  have a : definitions.terms "a".toList = some d := (other _ (by decide)).trans known
  have plain : Plain definitions (Defines prefixedOnce) "a:b".toList := by
    refine ⟨by decide, fun d' defined => ?_⟩
    cases ((other _ (by decide)).trans (only _ (by decide))).symm.trans defined
  have through : Prefixed definitions "a:b".toList "a".toList "b".toList d := ⟨rfl, rfl, a⟩
  have absolute : ∀ {full name suffix : Text}, ("http://e/".toList).isPrefixOf full = true →
      splitOnce ':' full = some (name, suffix) → "//".toList.isPrefixOf suffix = true := by
    intro full name suffix starts split
    obtain ⟨rest, rfl⟩ := List.isPrefixOf_iff_prefix.mp starts
    cases split
    rfl
  have full : ∀ term full, FullIri definitions (Defines prefixedOnce) term full →
      ("http://e/".toList).isPrefixOf full = true := by
    rintro term full ⟨d', defined, means⟩
    by_cases isB : term = "b".toList
    · subst isB
      cases b.symm.trans defined
      rcases means with ⟨-, expands⟩ | ⟨foreign, -⟩
      · rw [expands.unique (.inherited plain through old), iri]
        rfl
      · exact absurd ⟨by decide, _, List.mem_cons_self, Value.noConfusion⟩ foreign
    · have below := (other term isB).symm.trans defined
      by_cases isA : term = "a".toList
      · subst isA
        cases known.symm.trans below
        rcases means with ⟨new, -⟩ | ⟨-, rfl⟩
        · exact absurd new old
        · rw [iri]
          rfl
      · cases (only term isA).symm.trans below
  refine ⟨fun term d' new defined none => ?_, fun term d' name suffix definition new new' => ?_,
    fun term d' name suffix definition new defined shadow => ?_,
    fun term d' name suffix definition foreign defined prefixed => ?_,
    fun term full' name suffix full'' first _ split relative => ?_⟩
  · cases own term new
    cases b.symm.trans defined
    cases none.symm.trans through.expand
  · cases own term new
    intro defined _ prefixed
    cases b.symm.trans defined
    obtain ⟨rfl, -, -⟩ := through.unique prefixed
    exact absurd new' old
  · cases own term new
    cases b.symm.trans defined
    exact absurd plain shadow
  · have starts := full term d'.iri ⟨d', defined, Or.inr ⟨foreign, rfl⟩⟩
    cases (absolute starts prefixed.1).symm.trans prefixed.2.1
  · cases (absolute (full term full' first) split).symm.trans relative

theorem right_absolute :
    ∃ merged, ResolvesParts id .default [.array [.object absolute], .object prefixedOnce] merged ∧
      Stable id merged := by
  refine ⟨_, (right_iff_onePass id).2 .default [.array [.object absolute], .object prefixedOnce] _
    (stable_default id) ⟨⟨onePass_absolute, fun _ _ => trivial⟩,
      fun merged done => ⟨?_, fun _ _ => trivial⟩⟩ rfl⟩
  cases done
  refine onePass_prefixedOnce rfl rfl fun term other => ?_
  have none : (Context.default.insert "a".toList
      ⟨"http://e/".toList, Option.none, false, Option.none⟩).terms term = Option.none :=
    Function.update_of_ne other _ _
  change ((_ : Option TermDefinition).map _).map _ = _
  exact congrArg (fun o => Option.map _ (Option.map _ o)) none

/-- Three terms, each but the first defined through the one before it. -/
def chain : List (Text × Value) :=
  [("a".toList, .string "http://e/".toList), ("b".toList, .string "a:b/".toList),
    ("c".toList, .string "b:c".toList)]

theorem not_meets_chain :
    (∃ definitions, collect id .default chain = .ok definitions ∧
      Acyclic definitions (Defines chain)) ∧ ¬ Meets id .default chain := by
  constructor
  · refine ⟨_, rfl, fun term => if term = "a".toList then 0 else if term = "b".toList then 1 else 2,
      ?_⟩
    rintro term name ⟨⟨-, value, inside, -⟩, -, d, defined, reach⟩
    simp only [chain, List.mem_cons, List.not_mem_nil, or_false, Prod.mk.injEq] at inside
    rcases inside with ⟨rfl, -⟩ | ⟨rfl, -⟩ | ⟨rfl, -⟩ <;> cases defined <;>
      rcases reach with ⟨rfl, -, term⟩ | ⟨suffix, definition, split, relative, -⟩
    · cases term
    · cases split
      cases relative
    · cases term
    · cases split
      decide
    · cases term
    · cases split
      decide
  · rintro ⟨-, meets⟩
    obtain ⟨-, stable⟩ := meets _ _ rfl rfl
    have again := congrFun (congrArg Context.terms stable.secondPass) "c".toList
    revert again
    decide

end Graphy.JsonLd
