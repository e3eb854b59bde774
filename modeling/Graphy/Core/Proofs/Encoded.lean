import Graphy.Core.Proofs.Text

/-!
# Percent-encoded text

Text made of allowed characters and complete percent-encodings.  It can be put
together and cut at any character that is no part of a percent-encoding, which is
what resolution does with paths.
-/

namespace Graphy.Iri

/-- Allowed characters and complete percent-encodings. -/
inductive Encoded (allowed : Char → Bool) : List Char → Prop
  | nil : Encoded allowed []
  | char {c : Char} {s : List Char} (raw : c ≠ '%') (ok : allowed c = true)
      (rest : Encoded allowed s) : Encoded allowed (c :: s)
  | percent {a b : Char} {s : List Char} (hexA : isAsciiHexdigit a = true)
      (hexB : isAsciiHexdigit b = true) (rest : Encoded allowed s) :
      Encoded allowed ('%' :: a :: b :: s)

/-- Percent-encodings are complete. -/
abbrev Complete : List Char → Prop := Encoded fun _ => true

/-- A character that is no part of a percent-encoding. -/
structure Separates (c : Char) : Prop where
  raw : c ≠ '%'
  hex : isAsciiHexdigit c = false

namespace Encoded

variable {allowed : Char → Bool} {s t : List Char} {c : Char}

theorem mono {allowed' : Char → Bool} (le : ∀ c, allowed c = true → allowed' c = true)
    (h : Encoded allowed s) : Encoded allowed' s := by
  induction h with
  | nil => exact .nil
  | char raw ok _ ih => exact .char raw (le _ ok) ih
  | percent hexA hexB _ ih => exact .percent hexA hexB ih

theorem complete (h : Encoded allowed s) : Complete s := h.mono fun _ _ => rfl

theorem append (hs : Encoded allowed s) (ht : Encoded allowed t) : Encoded allowed (s ++ t) := by
  induction hs with
  | nil => exact ht
  | char raw ok _ ih => exact .char raw ok ih
  | percent hexA hexB _ ih => exact .percent hexA hexB ih

theorem cons_iff (raw : c ≠ '%') :
    Encoded allowed (c :: s) ↔ allowed c = true ∧ Encoded allowed s := by
  constructor
  · intro h
    cases h with
    | char _ ok rest => exact ⟨ok, rest⟩
    | percent => exact (raw rfl).elim
  · exact fun h => .char raw h.1 h.2

/-- A character between percent-encodings cuts the text. -/
theorem cut (sep : Separates c) (h : Encoded allowed (s ++ c :: t)) :
    Encoded allowed s ∧ allowed c = true ∧ Encoded allowed t := by
  obtain ⟨whole, same⟩ : ∃ whole, whole = s ++ c :: t := ⟨_, rfl⟩
  rw [← same] at h
  induction h generalizing s with
  | nil => simp at same
  | @char d u raw ok rest ih =>
      cases s with
      | nil =>
          obtain ⟨rfl, rfl⟩ := List.cons.inj same
          exact ⟨.nil, ok, rest⟩
      | cons e s =>
          obtain ⟨rfl, tail⟩ := List.cons.inj same
          obtain ⟨before, at_, after⟩ := ih tail
          exact ⟨.char raw ok before, at_, after⟩
  | @percent a b u hexA hexB rest ih =>
      have hex {d : Char} (h : isAsciiHexdigit d = true) : d ≠ c := fun same =>
        Bool.eq_false_iff.mp sep.hex (same ▸ h)
      match s with
      | [] => exact (sep.raw (List.cons.inj same).1.symm).elim
      | [_] =>
          simp only [List.cons_append, List.nil_append, List.cons.injEq] at same
          exact (hex hexA same.2.1).elim
      | [_, _] =>
          simp only [List.cons_append, List.nil_append, List.cons.injEq] at same
          exact (hex hexB same.2.2.1).elim
      | _ :: _ :: _ :: s =>
          simp only [List.cons_append, List.cons.injEq] at same
          obtain ⟨rfl, rfl, rfl, tail⟩ := same
          obtain ⟨before, at_, after⟩ := ih tail
          exact ⟨.percent hexA hexB before, at_, after⟩

/-- A separating character that is not allowed does not occur. -/
theorem not_mem (sep : Separates c) (refused : allowed c = false) (h : Encoded allowed s) :
    c ∉ s := by
  intro inside
  obtain ⟨a, b, rfl⟩ := List.append_of_mem inside
  exact Bool.eq_false_iff.mp refused (h.cut sep).2.1

/-- What holds of the allowed characters and of percent-encodings holds throughout. -/
theorem all {P : Char → Prop} (ok : ∀ c, allowed c = true → P c) (percent : P '%')
    (hex : ∀ c, isAsciiHexdigit c = true → P c) (h : Encoded allowed s) : ∀ c ∈ s, P c := by
  induction h with
  | nil => simp
  | char _ okC _ ih => exact List.forall_mem_cons.mpr ⟨ok _ okC, ih⟩
  | percent hexA hexB _ ih =>
      exact List.forall_mem_cons.mpr ⟨percent, List.forall_mem_cons.mpr ⟨hex _ hexA,
        List.forall_mem_cons.mpr ⟨hex _ hexB, ih⟩⟩⟩

end Encoded

/-! ## The checks -/

theorem percentComplete_char (iri : String) (pos : Nat) {c : Char} (raw : c ≠ '%')
    (s : List Char) :
    percentComplete iri pos (c :: s) = percentComplete iri (pos + c.utf8Size) s := by
  rw [percentComplete]
  all_goals intros; simp_all

theorem percentComplete_iff {iri : String} {pos : Nat} {s : List Char} :
    percentComplete iri pos s = .ok () ↔ Complete s := by
  constructor
  · intro h
    induction pos, s using percentComplete.induct with
    | case1 => exact .nil
    | case2 pos a b s hex ih =>
        rw [percentComplete, if_pos hex] at h
        rw [Bool.and_eq_true] at hex
        exact .percent hex.1 hex.2 (ih h)
    | case3 pos a b s hex =>
        rw [percentComplete, if_neg hex] at h
        cases h
    | case4 pos a one =>
        rw [percentComplete, if_pos one] at h
        cases h
    | case5 pos a one =>
        rw [percentComplete, if_neg one] at h
        cases h
    | case6 pos => cases h
    | case7 pos c s h1 h2 h3 ih =>
        have raw : c ≠ '%' := by
          rintro rfl
          match s with
          | [] => exact h3 rfl rfl
          | [a] => exact h2 a rfl rfl
          | a :: b :: s => exact h1 a b s rfl rfl
        rw [percentComplete_char iri pos raw] at h
        exact .char raw rfl (ih h)
  · intro h
    induction h generalizing pos with
    | nil => rfl
    | char raw _ _ ih =>
        rw [percentComplete_char iri pos raw]
        exact ih
    | percent hexA hexB _ ih =>
        rw [percentComplete, hexA, hexB]
        exact ih

theorem findRefused_char (allowed : Char → Bool) (pos : Nat) {c : Char} (raw : c ≠ '%')
    (s : List Char) :
    findRefused allowed pos (c :: s) =
      if allowed c then findRefused allowed (pos + c.utf8Size) s else some pos := by
  rw [findRefused]
  all_goals intros; simp_all

/-- Of complete text the check accepts what is encoded by allowed characters. -/
theorem findRefused_iff {allowed : Char → Bool} {pos : Nat} {s : List Char} (h : Complete s) :
    findRefused allowed pos s = none ↔ Encoded allowed s := by
  induction h generalizing pos with
  | nil => exact ⟨fun _ => .nil, fun _ => rfl⟩
  | @char c s raw _ _ ih =>
      rw [findRefused_char allowed pos raw, Encoded.cons_iff raw]
      by_cases ok : allowed c = true
      · rw [if_pos ok, ih, and_iff_right ok]
      · rw [if_neg ok]
        simp [ok]
  | percent hexA hexB _ ih =>
      rw [findRefused, ih]
      constructor
      · exact .percent hexA hexB
      · intro h
        cases h with
        | char raw => exact (raw rfl).elim
        | percent _ _ rest => exact rest

/-- What a component may hold raw. -/
def componentChar (component : Component) (c : Char) : Bool :=
  isIpchar c || c == '/' ||
    (decide (component = .queryOrFragment) && (c == '?' || isIprivate c))

theorem validateComponent_iff {iri : String} {value : List Char} {component : Component}
    (h : Complete value) :
    validateComponent iri value component = .ok () ↔ Encoded (componentChar component) value := by
  have allowed : findRefused (fun c => isIpchar c || c == '/' ||
      (decide (component = .queryOrFragment) && (c == '?' || isIprivate c))) 0 value =
      findRefused (componentChar component) 0 value := rfl
  rw [← @findRefused_iff _ 0 _ h]
  unfold validateComponent
  simp only [allowed]
  cases findRefused (componentChar component) 0 value with
  | none => simp
  | some i => simp

end Graphy.Iri
