import Graphy.Core.Proofs.Encoded
import Graphy.Core.Proofs.Iri

/-!
# Resolved references

Sound parts, those whose components are valid and whose path is rooted after an
authority, stay sound under resolution.  Recomposed they parse to themselves, unless a
path without an authority begins with two slashes, which dot segments can uncover.
-/

namespace Graphy.Iri

open Rfc3986

/-! ## Characters -/

def schemeChar (c : Char) : Bool := isAsciiAlphanumeric c || ['+', '-', '.'].contains c

/-- What stands in a part may stand in a reference. -/
theorem not_forbidden {c : Char} (h : schemeChar c = true ∨
    componentChar .queryOrFragment c = true ∨ c = '%' ∨ isAsciiHexdigit c = true) :
    isForbidden c = false := by
  have table : ∀ n < 128, isForbidden (Char.ofNat n) = true →
      schemeChar (Char.ofNat n) = false ∧
      componentChar .queryOrFragment (Char.ofNat n) = false ∧ Char.ofNat n ≠ '%' ∧
      isAsciiHexdigit (Char.ofNat n) = false := by decide
  by_contra forbidden
  rw [Bool.not_eq_false] at forbidden
  have small : c.toNat < 128 := by
    rcases (isForbidden_iff c).mp forbidden with low | listed
    · omega
    · simp only [List.mem_cons, List.not_mem_nil, or_false] at listed
      omega
  have found := table c.toNat small
  rw [Char.ofNat_toNat] at found
  obtain ⟨h1, h2, h3, h4⟩ := found forbidden
  rcases h with h | h | h | h
  · rw [h1] at h
    cases h
  · rw [h2] at h
    cases h
  · exact h3 h
  · rw [h4] at h
    cases h

theorem componentChar_path {c : Char} (h : componentChar .path c = true) :
    componentChar .queryOrFragment c = true := by
  simp only [componentChar, decide_true, decide_false, reduceCtorEq, Bool.true_and,
    Bool.false_and, Bool.or_false] at h ⊢
  rw [h, Bool.true_or]

/-- Complete and free of forbidden characters. -/
abbrev Raw : List Char → Prop := Encoded fun c => !isForbidden c

theorem raw_of_clean {s : List Char} (complete : Complete s)
    (clean : ∀ c ∈ s, isForbidden c = false) : Raw s := by
  induction complete with
  | nil => exact .nil
  | char raw _ _ ih =>
      rw [List.forall_mem_cons] at clean
      exact .char raw (by rw [clean.1]; rfl) (ih clean.2)
  | percent hexA hexB _ ih =>
      simp only [List.forall_mem_cons] at clean
      exact .percent hexA hexB (ih clean.2.2.2)

theorem clean_of_raw {s : List Char} (h : Raw s) : ∀ c ∈ s, isForbidden c = false :=
  h.all (fun _ ok => Bool.not_eq_true' _ |>.mp ok) (not_forbidden (.inr (.inr (.inl rfl))))
    fun _ hex => not_forbidden (.inr (.inr (.inr hex)))

theorem findForbidden_of_clean {pos : Nat} {s : List Char}
    (clean : ∀ c ∈ s, isForbidden c = false) : findForbidden pos s = none := by
  induction s generalizing pos with
  | nil => rfl
  | cons c s ih =>
      rw [List.forall_mem_cons] at clean
      rw [findForbidden, clean.1]
      exact ih clean.2

theorem raw_of_component {component : Component} {s : List Char}
    (h : Encoded (componentChar component) s) : Raw s := by
  refine h.mono fun c ok => ?_
  have any : componentChar .queryOrFragment c = true := by
    cases component with
    | path => exact componentChar_path ok
    | queryOrFragment => exact ok
  rw [not_forbidden (.inr (.inl any))]
  rfl

/-! ## Sound parts -/

/-- The text of an authority. -/
structure AuthorityText (a : List Char) : Prop where
  valid : ∀ iri, validateAuthority iri a = .ok ()
  raw : Raw a
  ends : ∀ c ∈ a, ['/', '?', '#'].contains c = false

/-- A path that may follow an authority. -/
def Rooted (path : List Char) : Prop := path = [] ∨ path.head? = some '/'

structure Sound (p : IriParts) : Prop where
  scheme : ∀ s ∈ p.scheme, isScheme s = true
  authority : ∀ a ∈ p.authority, AuthorityText a
  path : Encoded (componentChar .path) p.path
  rooted : p.authority.isSome → Rooted p.path
  query : ∀ q ∈ p.query, Encoded (componentChar .queryOrFragment) q
  fragment : ∀ f ∈ p.fragment, Encoded (componentChar .queryOrFragment) f

theorem separates_slash : Separates '/' := ⟨by decide, by decide⟩

theorem separates_of_ends {c : Char} (h : ['/', '?', '#'].contains c = true) : Separates c := by
  rw [List.contains_iff_mem] at h
  simp only [List.mem_cons, List.not_mem_nil, or_false] at h
  rcases h with rfl | rfl | rfl <;> exact ⟨by decide, by decide⟩

/-! ## Parsing gives sound parts -/

theorem raw_cut {c : Char} (sep : Separates c) {s : List Char} (h : Raw s) :
    (∀ f ∈ (cut c s).1, Raw f) ∧ Raw (cut c s).2 := by
  unfold cut
  obtain ⟨-, absent⟩ | ⟨a, b, rfl, -, found⟩ := splitOnce_cases c s
  · rw [absent]
    exact ⟨by simp, h⟩
  · rw [found]
    obtain ⟨before, -, after⟩ := h.cut sep
    exact ⟨by simpa using after, before⟩

theorem raw_splitScheme {s : List Char} (h : Raw s) :
    (∀ c ∈ (splitScheme s).1, isScheme c = true) ∧ Raw (splitScheme s).2 := by
  unfold splitScheme
  obtain ⟨-, absent⟩ | ⟨a, b, rfl, -, found⟩ := splitOnce_cases ':' s
  · rw [absent]
    exact ⟨by simp, h⟩
  · rw [found]
    by_cases scheme : isScheme a = true
    · simp only [if_pos scheme]
      exact ⟨by simpa using scheme, (h.cut ⟨by decide, by decide⟩).2.2⟩
    · simp only [if_neg scheme]
      exact ⟨by simp, h⟩

theorem raw_splitAuthority {s : List Char} (h : Raw s) :
    (∀ a ∈ (splitAuthority s).1, Raw a ∧ ∀ c ∈ a, ['/', '?', '#'].contains c = false) ∧
      Raw (splitAuthority s).2 ∧
      ((splitAuthority s).1 = none → ¬ ['/', '/'] <+: (splitAuthority s).2) := by
  unfold splitAuthority
  split
  · rename_i after
    rw [List.span_eq_takeWhile_dropWhile]
    have rawAfter : Raw after :=
      ((Encoded.cons_iff (by decide)).mp ((Encoded.cons_iff (by decide)).mp h).2).2
    have parts : Raw (after.takeWhile fun c => !(['/', '?', '#'].contains c)) ∧
        Raw (after.dropWhile fun c => !(['/', '?', '#'].contains c)) := by
      have whole := @List.takeWhile_append_dropWhile _ (fun c => !(['/', '?', '#'].contains c)) after
      cases rest : after.dropWhile fun c => !(['/', '?', '#'].contains c) with
      | nil =>
          rw [rest, List.append_nil] at whole
          exact ⟨by rwa [whole], .nil⟩
      | cons d t =>
          have ends : ['/', '?', '#'].contains d = true := by
            have some_ : after.dropWhile (fun c => !(['/', '?', '#'].contains c)) ≠ [] :=
              fun empty => List.cons_ne_nil d t (rest.symm.trans empty)
            have head := List.head_dropWhile_not (fun c => !(['/', '?', '#'].contains c)) some_
            simpa only [rest, List.head_cons, Bool.not_eq_false'] using head
          rw [rest] at whole
          rw [← whole] at rawAfter
          obtain ⟨before, ok, rest⟩ := rawAfter.cut (separates_of_ends ends)
          exact ⟨before, .char (separates_of_ends ends).raw ok rest⟩
    refine ⟨?_, parts.2, by simp⟩
    rintro a same
    cases same
    refine ⟨parts.1, fun c mem => ?_⟩
    exact (Bool.not_eq_true' _).mp (List.all_eq_true.mp List.all_takeWhile c mem)
  · rename_i other
    refine ⟨by simp, h, fun _ opens => ?_⟩
    obtain ⟨after, same⟩ := opens
    exact other after same.symm

theorem sound_of_parse {iri : String} {p : IriParts} (h : parseReference iri = .ok p) :
    Sound p ∧ ¬ Ambiguous p := by
  obtain ⟨clean, complete, rfl, checked⟩ := parseReference_eq_ok.mp h
  have raw := raw_of_clean (percentComplete_iff.mp complete) (clean_of_findForbidden clean)
  obtain ⟨rawFragment, rawBody⟩ := raw_cut (separates_of_ends (c := '#') (by decide)) raw
  obtain ⟨rawQuery, rawRest⟩ := raw_cut (separates_of_ends (c := '?') (by decide)) rawBody
  obtain ⟨scheme, rawHier⟩ := raw_splitScheme rawRest
  obtain ⟨rawAuthority, rawPath, opened⟩ := raw_splitAuthority rawHier
  refine ⟨⟨scheme, fun a mem => ?_, ?_, fun given => ?_, fun q mem => ?_, fun f mem => ?_⟩,
    fun ambiguous => opened ambiguous.1 ambiguous.2⟩
  · obtain ⟨raw, ends⟩ := rawAuthority a mem
    exact ⟨validateAuthority_any (checked.authority a mem).1, raw, ends⟩
  · exact (validateComponent_iff rawPath.complete).mp checked.path
  · obtain ⟨a, mem⟩ := Option.isSome_iff_exists.mp given
    exact (checked.authority a mem).2
  · exact (validateComponent_iff (rawQuery q mem).complete).mp (checked.query q mem)
  · exact (validateComponent_iff (rawFragment f mem).complete).mp (checked.fragment f mem)

/-! ## Sound parts parse to themselves -/

theorem scheme_chars {s : List Char} (h : isScheme s = true) : Encoded schemeChar s := by
  have all : s.all schemeChar = true := (Bool.and_eq_true_iff.mp h).2
  have refused : schemeChar '%' = false := by decide
  clear h
  induction s with
  | nil => exact .nil
  | cons c s ih =>
      rw [List.all_cons, Bool.and_eq_true] at all
      refine .char (fun percent => ?_) all.1 (ih all.2)
      rw [percent, refused] at all
      exact Bool.noConfusion all.1

theorem cut_append {c : Char} {body : List Char} (absent : c ∉ body) (o : Option (List Char)) :
    cut c (body ++ o.elim [] fun f => c :: f) = (o, body) := by
  unfold cut
  cases o with
  | none =>
      simp only [Option.elim_none, List.append_nil]
      rw [splitOnce_of_not_mem absent]
  | some f =>
      simp only [Option.elim_some]
      rw [splitOnce_append absent]

theorem splitAuthority_append {authority : Option (List Char)} {path : List Char}
    (ends : ∀ a ∈ authority, ∀ c ∈ a, ['/', '?', '#'].contains c = false)
    (rooted : authority.isSome → Rooted path)
    (opened : ¬ (authority = none ∧ ['/', '/'] <+: path)) :
    splitAuthority ((authority.elim [] fun a => '/' :: '/' :: a) ++ path) = (authority, path) := by
  cases authority with
  | none =>
      unfold splitAuthority
      simp only [Option.elim_none, List.nil_append]
      split
      · rename_i after
        exact (opened ⟨rfl, after, rfl⟩).elim
      · rfl
  | some a =>
      have within : ∀ c ∈ a, (!(['/', '?', '#'].contains c)) = true := fun c mem =>
        Bool.not_eq_true' _ |>.mpr (ends a rfl c mem)
      have stops : path.takeWhile (fun c => !(['/', '?', '#'].contains c)) = [] ∧
          path.dropWhile (fun c => !(['/', '?', '#'].contains c)) = path := by
        cases path with
        | nil => exact ⟨rfl, rfl⟩
        | cons d t =>
            have slash : d = '/' := by
              rcases rooted rfl with empty | first
              · cases empty
              · exact Option.some.inj first
            subst slash
            exact ⟨rfl, rfl⟩
      unfold splitAuthority
      simp only [Option.elim_some, List.cons_append]
      rw [List.span_eq_takeWhile_dropWhile, List.takeWhile_append_of_pos within,
        List.dropWhile_append_of_pos within, stops.1, stops.2, List.append_nil]

theorem raw_scheme {s : List Char} (h : isScheme s = true) : Raw s :=
  (scheme_chars h).mono fun c ok => by
    rw [not_forbidden (.inl ok)]
    rfl

/-- A part after its delimiter. -/
theorem raw_delimited {c : Char} (sep : Separates c) (free : isForbidden c = false)
    {o : Option (List Char)} (h : ∀ f ∈ o, Raw f) : Raw (o.elim [] fun f => c :: f) := by
  cases o with
  | none => exact .nil
  | some f =>
      refine .char sep.raw ?_ (h f rfl)
      rw [free]
      rfl

theorem raw_recompose {p : IriParts} (sound : Sound p) : Raw (recompose p) := by
  have rawScheme : Raw (p.scheme.elim [] fun s => s ++ [':']) := by
    cases scheme : p.scheme with
    | none => exact .nil
    | some s => exact (raw_scheme (sound.scheme s scheme)).append (.char (by decide) (by decide) .nil)
  have rawAuthority : Raw (p.authority.elim [] fun a => '/' :: '/' :: a) := by
    cases authority : p.authority with
    | none => exact .nil
    | some a =>
        have slash : '/' ≠ '%' := by decide
        have free : (!isForbidden '/') = true := by decide
        exact .char slash free (.char slash free (sound.authority a authority).raw)
  have rawQuery : Raw (p.query.elim [] fun q => '?' :: q) :=
    raw_delimited ⟨by decide, by decide⟩ (by decide) fun q mem =>
      raw_of_component (sound.query q mem)
  have rawFragment : Raw (p.fragment.elim [] fun f => '#' :: f) :=
    raw_delimited ⟨by decide, by decide⟩ (by decide) fun f mem =>
      raw_of_component (sound.fragment f mem)
  exact (((rawScheme.append rawAuthority).append (raw_of_component sound.path)).append
    rawQuery).append rawFragment

/-- The delimiters of the query and the fragment do not occur before these. -/
theorem not_mem_hier {p : IriParts} (sound : Sound p) {s : List Char} (scheme : p.scheme = some s)
    {c : Char} (delimiter : c = '?' ∨ c = '#') :
    c ∉ s ++ [':'] ++ (p.authority.elim [] fun a => '/' :: '/' :: a) ++ p.path := by
  obtain ⟨sep, notScheme, notColon, notSlash, ends, notPath⟩ :
      Separates c ∧ schemeChar c = false ∧ c ≠ ':' ∧ c ≠ '/' ∧
        ['/', '?', '#'].contains c = true ∧ componentChar .path c = false := by
    rcases delimiter with rfl | rfl <;>
      exact ⟨⟨by decide, by decide⟩, by decide, by decide, by decide, by decide, by decide⟩
  have inAuthority : c ∉ p.authority.elim [] fun a => '/' :: '/' :: a := by
    cases authority : p.authority with
    | none => simp
    | some a =>
        simp only [Option.elim_some, List.mem_cons, not_or]
        exact ⟨notSlash, notSlash, fun mem => Bool.eq_false_iff.mp
          ((sound.authority a authority).ends c mem) ends⟩
  simp only [List.mem_append, List.mem_singleton, not_or]
  exact ⟨⟨⟨(scheme_chars (sound.scheme s scheme)).not_mem sep notScheme, notColon⟩, inAuthority⟩,
    sound.path.not_mem sep notPath⟩

theorem partsOf_recompose {p : IriParts} (sound : Sound p) {s : List Char}
    (scheme : p.scheme = some s) (opened : ¬ Ambiguous p) : partsOf (recompose p) = p := by
  have noMark := not_mem_hier sound scheme (.inl rfl)
  have noHash := not_mem_hier sound scheme (.inr rfl)
  have isScheme_ := sound.scheme s scheme
  obtain ⟨_, authority, path, query, fragment⟩ := p
  cases scheme
  have noHashInQuery : '#' ∉ query.elim [] fun q => '?' :: q := by
    cases query with
    | none => simp
    | some q =>
        rw [Option.elim_some, List.mem_cons, not_or]
        exact ⟨by decide, (sound.query q rfl).not_mem ⟨by decide, by decide⟩ (by decide)⟩
  have body : cut '#' (recompose ⟨some s, authority, path, query, fragment⟩) =
      (fragment, s ++ [':'] ++ (authority.elim [] fun a => '/' :: '/' :: a) ++ path ++
        query.elim [] fun q => '?' :: q) :=
    cut_append (List.not_mem_append noHash noHashInQuery) fragment
  have hier : splitScheme (s ++ [':'] ++ (authority.elim [] fun a => '/' :: '/' :: a) ++ path) =
      (some s, (authority.elim [] fun a => '/' :: '/' :: a) ++ path) := by
    have colon : ':' ∉ s := (scheme_chars isScheme_).not_mem ⟨by decide, by decide⟩ (by decide)
    unfold splitScheme
    rw [List.append_assoc, List.append_assoc, List.singleton_append, splitOnce_append colon]
    simp only [if_pos isScheme_]
  have split := splitAuthority_append (fun a mem => (sound.authority a mem).ends) sound.rooted opened
  unfold partsOf
  rw [body]
  simp only
  rw [cut_append noMark query]
  simp only
  rw [hier]
  simp only
  rw [split]

theorem parse_recompose {p : IriParts} (sound : Sound p) {s : List Char}
    (scheme : p.scheme = some s) (opened : ¬ Ambiguous p) :
    parseReference (String.ofList (recompose p)) = .ok p := by
  have raw := raw_recompose sound
  rw [parseReference_eq_ok, String.toList_ofList, partsOf_recompose sound scheme opened]
  refine ⟨findForbidden_of_clean (clean_of_raw raw), percentComplete_iff.mpr raw.complete, rfl, ?_⟩
  refine ⟨fun f mem => ?_, fun a mem => ⟨(sound.authority a mem).valid _, ?_⟩,
    fun _ relative => ?_, ?_, fun q mem => ?_, fun f mem => ?_⟩
  · exact (sound.fragment f mem).not_mem ⟨by decide, by decide⟩ (by decide)
  · exact sound.rooted (Option.isSome_of_mem mem)
  · rw [scheme] at relative
    cases relative
  · exact (validateComponent_iff sound.path.complete).mpr sound.path
  · exact (validateComponent_iff (sound.query q mem).complete).mpr (sound.query q mem)
  · exact (validateComponent_iff (sound.fragment f mem).complete).mpr (sound.fragment f mem)

/-! ## The target is sound -/

/-- Popping leaves nothing, or what stands before the last slash. -/
theorem popSegment_cases (output : List Char) :
    popSegment output = [] ∨ ∃ after, output = popSegment output ++ '/' :: after := by
  unfold popSegment
  obtain ⟨absent, -⟩ | ⟨before, after, found, same, -, -⟩ := rsplitOnce_eq '/' output
  · rw [absent]
    exact .inl rfl
  · rw [found]
    exact .inr ⟨after, same⟩

theorem encoded_popSegment {allowed : Char → Bool} {output : List Char}
    (h : Encoded allowed output) : Encoded allowed (popSegment output) := by
  rcases popSegment_cases output with empty | ⟨after, same⟩
  · rw [empty]
    exact .nil
  · rw [same] at h
    exact (h.cut separates_slash).1

theorem rooted_popSegment {output : List Char} (h : Rooted output) : Rooted (popSegment output) := by
  rcases popSegment_cases output with empty | ⟨after, same⟩
  · exact .inl empty
  · cases popped : popSegment output with
    | nil => exact .inl rfl
    | cons c rest =>
        rw [popped] at same
        rw [same] at h
        exact .inr (h.resolve_left (by simp))

/-- The first segment ends before a slash or with the text. -/
theorem segment_cases (rest : List Char) :
    (rest.dropWhile fun d => d != '/') = [] ∧ (rest.takeWhile fun d => d != '/') = rest ∨
      ∃ t, (rest.dropWhile fun d => d != '/') = '/' :: t ∧
        rest = (rest.takeWhile fun d => d != '/') ++ '/' :: t := by
  have whole := @List.takeWhile_append_dropWhile _ (fun d => d != '/') rest
  cases after : rest.dropWhile fun d => d != '/' with
  | nil =>
      rw [after, List.append_nil] at whole
      exact .inl ⟨rfl, whole⟩
  | cons d t =>
      have some_ : rest.dropWhile (fun d => d != '/') ≠ [] :=
        fun empty => List.cons_ne_nil d t (after.symm.trans empty)
      have head := List.head_dropWhile_not (fun d => d != '/') some_
      have slash : d = '/' := by simpa only [after, List.head_cons, bne_eq_false_iff_eq] using head
      rw [after, slash] at whole
      exact .inr ⟨t, by rw [slash], whole.symm⟩

theorem encoded_removeDotSegmentsFrom {output input : List Char}
    (ho : Encoded (componentChar .path) output) (hi : Encoded (componentChar .path) input) :
    Encoded (componentChar .path) (removeDotSegmentsFrom output input) := by
  have tail {c : Char} {s : List Char} (raw : c ≠ '%')
      (h : Encoded (componentChar .path) (c :: s)) : Encoded (componentChar .path) s :=
    ((Encoded.cons_iff raw).mp h).2
  have root {s : List Char} (h : Encoded (componentChar .path) s) :
      Encoded (componentChar .path) ('/' :: s) := .char (by decide) (by decide) h
  have dot : '.' ≠ '%' := by decide
  have slash : '/' ≠ '%' := by decide
  induction output, input using removeDotSegmentsFrom.induct with
  | case1 output =>
      rw [removeDotSegmentsFrom]
      exact ho
  | case2 output rest ih =>
      rw [removeDotSegmentsFrom]
      exact ih ho (tail slash (tail dot (tail dot hi)))
  | case3 output rest ih =>
      rw [removeDotSegmentsFrom]
      exact ih ho (tail slash (tail dot hi))
  | case4 output rest ih =>
      rw [removeDotSegmentsFrom]
      exact ih ho (tail dot (tail slash hi))
  | case5 output ih =>
      rw [removeDotSegmentsFrom]
      exact ih ho (root .nil)
  | case6 output rest ih =>
      rw [removeDotSegmentsFrom]
      exact ih (encoded_popSegment ho) (tail dot (tail dot (tail slash hi)))
  | case7 output ih =>
      rw [removeDotSegmentsFrom]
      exact ih (encoded_popSegment ho) (root .nil)
  | case8 output =>
      rw [removeDotSegmentsFrom]
      exact ho
  | case9 output =>
      rw [removeDotSegmentsFrom]
      exact ho
  | case10 output c rest h1 h2 h3 h4 h5 h6 h7 h8 ih =>
      rw [removeDotSegmentsFrom]
      · rcases segment_cases rest with ⟨none_, all⟩ | ⟨t, after, same⟩
        · rw [none_, all] at ih ⊢
          exact ih (ho.append hi) .nil
        · rw [same, ← List.cons_append] at hi
          obtain ⟨before, -, behind⟩ := hi.cut separates_slash
          rw [after] at ih ⊢
          exact ih (ho.append before) (root behind)
      all_goals assumption

theorem rooted_removeDotSegmentsFrom {output input : List Char} (ho : Rooted output)
    (hi : Rooted input) : Rooted (removeDotSegmentsFrom output input) := by
  have dotted {s : List Char} (h : Rooted ('.' :: s)) : False := by
    rcases h with empty | first
    · cases empty
    · exact absurd (Option.some.inj first) (by decide)
  induction output, input using removeDotSegmentsFrom.induct with
  | case1 output =>
      rw [removeDotSegmentsFrom]
      exact ho
  | case2 output rest ih => exact (dotted hi).elim
  | case3 output rest ih => exact (dotted hi).elim
  | case4 output rest ih =>
      rw [removeDotSegmentsFrom]
      exact ih ho (.inr rfl)
  | case5 output ih =>
      rw [removeDotSegmentsFrom]
      exact ih ho (.inr rfl)
  | case6 output rest ih =>
      rw [removeDotSegmentsFrom]
      exact ih (rooted_popSegment ho) (.inr rfl)
  | case7 output ih =>
      rw [removeDotSegmentsFrom]
      exact ih (rooted_popSegment ho) (.inr rfl)
  | case8 output => exact (dotted hi).elim
  | case9 output => exact (dotted hi).elim
  | case10 output c rest h1 h2 h3 h4 h5 h6 h7 h8 ih =>
      rw [removeDotSegmentsFrom]
      · have slash : c = '/' := Option.some.inj (hi.resolve_left (by simp))
        have moved : Rooted (output ++ c :: rest.takeWhile fun d => d != '/') := by
          cases output with
          | nil =>
              rw [slash]
              exact .inr rfl
          | cons d output => exact .inr (ho.resolve_left (by simp))
        refine ih moved ?_
        rcases segment_cases rest with ⟨none_, -⟩ | ⟨t, after, -⟩
        · exact .inl none_
        · rw [after]
          exact .inr rfl
      all_goals assumption

theorem encoded_merge {base : IriParts} (sound : Sound base) {path : List Char}
    (h : Encoded (componentChar .path) path) : Encoded (componentChar .path) (merge base path) := by
  have root {s : List Char} (h : Encoded (componentChar .path) s) :
      Encoded (componentChar .path) ('/' :: s) := .char (by decide) (by decide) h
  rw [← mergePaths_eq]
  unfold mergePaths
  split
  · exact root h
  · obtain ⟨absent, -⟩ | ⟨before, after, found, same, -, -⟩ := rsplitOnce_eq '/' base.path
    · rw [absent]
      exact h
    · rw [found]
      have whole := sound.path
      rw [same] at whole
      exact (whole.cut separates_slash).1.append (root h)

theorem rooted_merge {base : IriParts} (sound : Sound base) (given : base.authority.isSome)
    (path : List Char) : Rooted (merge base path) := by
  unfold merge
  split
  · exact .inr rfl
  · rename_i some_
    have rooted := (sound.rooted given).resolve_left fun empty => some_ ⟨given, empty⟩
    obtain ⟨rest, same⟩ : ∃ rest, base.path = '/' :: rest := by
      cases path : base.path with
      | nil =>
          rw [path] at rooted
          cases rooted
      | cons c rest =>
          rw [path] at rooted
          exact ⟨rest, by rw [Option.some.inj rooted]⟩
    have inside : '/' ∈ base.path := by
      rw [same]
      exact List.mem_cons_self
    obtain ⟨-, gone⟩ | ⟨before, after, -, whole, -, last⟩ := rsplitOnce_eq '/' base.path
    · rw [List.dropWhile_eq_nil_iff] at gone
      simpa using gone '/' (List.mem_reverse.mpr inside)
    · rw [last, List.reverse_cons, List.reverse_reverse]
      rw [same] at whole
      cases before with
      | nil => exact .inr rfl
      | cons c before =>
          rw [List.cons_append, List.cons.injEq] at whole
          rw [← whole.1]
          exact .inr rfl

theorem sound_target {b r : IriParts} (hb : Sound b) (hr : Sound r) : Sound (target b r) := by
  have encoded {path : List Char} (h : Encoded (componentChar .path) path) :
      Encoded (componentChar .path) (Rfc3986.removeDotSegments path) := by
    rw [← removeDotSegments_eq]
    exact encoded_removeDotSegmentsFrom .nil h
  have rooted {path : List Char} (h : Rooted path) : Rooted (Rfc3986.removeDotSegments path) := by
    rw [← removeDotSegments_eq]
    exact rooted_removeDotSegmentsFrom (.inl rfl) h
  unfold target
  split
  · exact ⟨hr.scheme, hr.authority, encoded hr.path, fun given => rooted (hr.rooted given),
      hr.query, hr.fragment⟩
  · split
    · exact ⟨hb.scheme, hr.authority, encoded hr.path, fun given => rooted (hr.rooted given),
        hr.query, hr.fragment⟩
    · split
      · refine ⟨hb.scheme, hb.authority, hb.path, hb.rooted, ?_, hr.fragment⟩
        simp only
        split
        · exact hr.query
        · exact hb.query
      · refine ⟨hb.scheme, hb.authority, encoded ?_, fun given => rooted ?_, hr.query, hr.fragment⟩
        · split
          · exact hr.path
          · exact encoded_merge hb hr.path
        · split
          · rename_i first
            exact .inr first
          · exact rooted_merge hb given r.path

theorem scheme_target {b r : IriParts} (h : b.scheme.isSome) : (target b r).scheme.isSome := by
  unfold target
  split
  · assumption
  · split
    · exact h
    · split <;> exact h

/-! ## Resolution -/

theorem resolve_eq {base reference : String} {b r : IriParts} (hb : parseReference base = .ok b)
    (absolute : b.scheme.isSome) (hr : parseReference reference = .ok r) :
    resolve base reference = .ok (String.ofList (recompose (target b r))) := by
  unfold resolve
  have some_ : b.scheme.isNone = false := Option.isNone_eq_false_iff.mpr absolute
  simp only [hb, hr, bind, Except.bind, pure, Except.pure, some_, Bool.false_eq_true, if_false,
    removeDotSegments_eq, mergePaths_eq]
  unfold target
  by_cases h1 : r.scheme.isSome = true
  · simp only [if_pos h1]
    rfl
  · by_cases h2 : r.authority.isSome = true
    · simp only [if_neg h1, if_pos h2]
      rfl
    · by_cases h3 : r.path = []
      · simp only [if_neg h1, if_neg h2, h3, List.isEmpty_nil, if_true]
        cases r.query <;> rfl
      · have filled : r.path.isEmpty = false := by
          rw [Bool.eq_false_iff, ne_eq, List.isEmpty_iff]
          exact h3
        by_cases h4 : r.path.head? = some '/'
        · simp only [if_neg h1, if_neg h2, filled, Bool.false_eq_true, if_neg h3, if_false,
            if_pos h4]
          rfl
        · simp only [if_neg h1, if_neg h2, filled, Bool.false_eq_true, if_neg h3, if_false,
            if_neg h4]
          rfl

theorem parse_of_validateIri {iri : String} (h : validateIri iri = .ok ()) :
    ∃ p, parseReference iri = .ok p ∧ p.scheme.isSome := by
  unfold validateIri at h
  cases parsed : parseReference iri with
  | error e =>
      rw [parsed] at h
      cases h
  | ok p =>
      rw [parsed] at h
      refine ⟨p, rfl, ?_⟩
      cases scheme : p.scheme with
      | none =>
          simp only [scheme, bind, Except.bind] at h
          cases h
      | some s => rfl

theorem validateIri_of_parse {iri : String} {p : IriParts} (parsed : parseReference iri = .ok p)
    (absolute : p.scheme.isSome) : validateIri iri = .ok () := by
  have some_ : p.scheme.isNone = false := Option.isNone_eq_false_iff.mpr absolute
  unfold validateIri
  simp only [parsed, bind, Except.bind, some_]
  rfl

theorem parse_of_validateReference {iri : String} (h : validateReference iri = .ok ()) :
    ∃ p, parseReference iri = .ok p := by
  unfold validateReference at h
  cases parsed : parseReference iri with
  | error e =>
      rw [parsed] at h
      cases h
  | ok p => exact ⟨p, rfl⟩

theorem not_resolves_of_uncovers {base reference : String} (h : Uncovers base reference) :
    ¬ Resolves base reference := by
  obtain ⟨b, r, hb, hr, ambiguous⟩ := h
  rintro ⟨b', r', iri, hb', hr', -, -, parsed⟩
  obtain rfl := Except.ok.inj (hb.symm.trans hb')
  obtain rfl := Except.ok.inj (hr.symm.trans hr')
  exact (sound_of_parse parsed).2 ambiguous

/-- Resolution gives a valid IRI with the parts of the target, unless the target has no
authority and a path that begins with two slashes. -/
theorem resolves_iff {base reference : String} (validBase : validateIri base = .ok ())
    (validReference : validateReference reference = .ok ()) :
    Resolves base reference ↔ ¬ Uncovers base reference := by
  refine ⟨fun resolves uncovers => not_resolves_of_uncovers uncovers resolves, fun covered => ?_⟩
  obtain ⟨b, hb, absolute⟩ := parse_of_validateIri validBase
  obtain ⟨r, hr⟩ := parse_of_validateReference validReference
  have opened : ¬ Ambiguous (target b r) := fun ambiguous => covered ⟨b, r, hb, hr, ambiguous⟩
  have sound := sound_target (sound_of_parse hb).1 (sound_of_parse hr).1
  have absoluteTarget := scheme_target (r := r) absolute
  obtain ⟨s, scheme⟩ := Option.isSome_iff_exists.mp absoluteTarget
  have parsed := parse_recompose sound scheme opened
  exact ⟨b, r, _, hb, hr, resolve_eq hb absolute hr, validateIri_of_parse parsed absoluteTarget,
    parsed⟩

theorem resolves_iff_dots : Resolves "http://a/b/c" "../d" ↔ ¬ Uncovers "http://a/b/c" "../d" :=
  resolves_iff (by decide) (by decide)

/-- A dot segment before an empty one uncovers what parses as an authority. -/
theorem not_resolves_dotSlash : ¬ ∀ base reference, validateIri base = .ok () →
    validateReference reference = .ok () → Resolves base reference := by
  intro all
  have uncovers : Uncovers "x:/a" ".//c" :=
    ⟨_, _, (rfl : parseReference "x:/a" = .ok ⟨some ['x'], none, ['/', 'a'], none, none⟩),
      (rfl : parseReference ".//c" = .ok ⟨none, none, ['.', '/', '/', 'c'], none, none⟩),
      by decide⟩
  exact not_resolves_of_uncovers uncovers (all _ _ (by decide) (by decide))

end Graphy.Iri
