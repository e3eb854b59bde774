import Graphy.Store.Sidecar
import Graphy.Succinct.Proofs.PfcBytes

/-!
# Sidecars find what the dictionary finds

Every term of the section stands in the run of occupied slots that begins where its hash
points, and some slot is empty.  So a search ends, and finds a term exactly when the section
has it.
-/

namespace Graphy

namespace HashSidecar

/-! ## Slots -/

section Slots

variable {high low : Nat} (byte : high < 2 ^ 8) (small : low < 2 ^ 56)
include small

theorem and_fpMask_low : low &&& fpMask = 0 := by
  apply Nat.eq_of_testBit_eq
  intro i
  rw [fpMask, fpShift, Nat.testBit_and, Nat.testBit_shiftLeft, Nat.zero_testBit]
  by_cases above : 56 ≤ i
  · have beyond : low < 2 ^ i := small.trans_le (Nat.pow_le_pow_right (by decide) above)
    rw [Nat.testBit_lt_two_pow beyond, Bool.false_and]
  · rw [decide_eq_false above, Bool.false_and, Bool.and_false]

theorem packed_ordinal : (high <<< fpShift ||| low) &&& ordinalMask = low := by
  rw [ordinalMask, fpShift, Nat.and_two_pow_sub_one_eq_mod, ← Nat.shiftLeft_add_eq_or_of_lt small,
    Nat.shiftLeft_eq, Nat.mul_add_mod_self_right, Nat.mod_eq_of_lt small]

include byte

theorem packed_fingerprint : (high <<< fpShift ||| low) &&& fpMask = high <<< fpShift := by
  have kept : high <<< fpShift &&& fpMask = high <<< fpShift := by
    rw [fpMask, ← Nat.shiftLeft_and_distrib, Nat.and_two_pow_sub_one_eq_mod,
      Nat.mod_eq_of_lt byte]
  rw [Nat.and_or_distrib_right, kept, and_fpMask_low small, Nat.or_zero]

theorem packed_lt : high <<< fpShift ||| low < 2 ^ 64 := by
  rw [fpShift, ← Nat.shiftLeft_add_eq_or_of_lt small, Nat.shiftLeft_eq]
  omega

end Slots

section Hash

variable {hash : Bytes → Fin (2 ^ 64)}

theorem high_lt (term : Bytes) : (hash term).val >>> fpShift < 2 ^ 8 := by
  have word := (hash term).isLt
  rw [fpShift, Nat.shiftRight_eq_div_pow]
  omega

variable {ordinal : Nat} (few : ordinal + 1 < 2 ^ 56) (term : Bytes)
include few

theorem slotOf_ordinal : slotOf hash ordinal term &&& ordinalMask = ordinal + 1 :=
  packed_ordinal few

theorem slotOf_fingerprint : slotOf hash ordinal term &&& fpMask = fingerprint hash term :=
  packed_fingerprint (high_lt term) few

theorem slotOf_lt : slotOf hash ordinal term < 2 ^ 64 := packed_lt (high_lt term) few

theorem slotOf_ne_zero : slotOf hash ordinal term ≠ 0 := by
  intro zero
  have none : slotOf hash ordinal term &&& ordinalMask = ordinal + 1 := slotOf_ordinal few term
  rw [zero, Nat.zero_and] at none
  omega

end Hash

theorem occupied_cons (slot : Nat) (slots : List Nat) :
    occupied (slot :: slots) = occupied slots + if slot = 0 then 0 else 1 := by
  rw [occupied, List.countP_cons, occupied]
  by_cases empty : slot = 0 <;> simp [empty]

theorem occupied_set {slots : List Nat} {place slot : Nat} (vacant : slots[place]? = some 0)
    (full : slot ≠ 0) : occupied (slots.set place slot) = occupied slots + 1 := by
  induction slots generalizing place with
  | nil => cases vacant
  | cons s slots ih =>
      cases place with
      | zero =>
          cases vacant
          rw [List.set_cons_zero, occupied_cons, occupied_cons, if_neg full, if_pos rfl]
      | succ place =>
          rw [List.set_cons_succ, occupied_cons, occupied_cons, ih vacant]
          omega

theorem exists_vacant {slots : List Nat} (room : occupied slots < slots.length) :
    ∃ place < slots.length, slots[place]? = some 0 := by
  by_contra full
  have all : occupied slots = slots.length := by
    rw [occupied, List.countP_eq_length]
    intro slot member
    obtain ⟨place, inside, here⟩ := List.mem_iff_getElem.mp member
    rw [decide_eq_true_eq]
    rintro rfl
    exact full ⟨place, inside, by rw [List.getElem?_eq_getElem inside, here]⟩
  omega

/-! ## Building -/

/-- The terms stand in the slots: each in the run of occupied slots that begins where its hash
points, and nothing else stands there. -/
structure Placed (hash : Bytes → Fin (2 ^ 64)) (m : Nat) (terms : List Bytes) (slots : List Nat) :
    Prop where
  length : slots.length = m
  reached : ∀ ordinal term, terms[ordinal]? = some term → ∃ k < m,
    slots[((hash term).val % m + k) % m]? = some (slotOf hash ordinal term) ∧
      ∀ j < k, slots[((hash term).val % m + j) % m]? ≠ some 0
  owned : ∀ slot ∈ slots, slot ≠ 0 → ∃ ordinal term, terms[ordinal]? = some term ∧
    slot = slotOf hash ordinal term
  count : occupied slots = terms.length

variable {hash : Bytes → Fin (2 ^ 64)} {m : Nat} {terms : List Bytes} {slots : List Nat}

theorem placed_empty (hash : Bytes → Fin (2 ^ 64)) (m : Nat) :
    Placed hash m [] (List.replicate m 0) where
  length := List.length_replicate
  reached _ _ there := by cases there
  owned slot member full := absurd (List.eq_of_mem_replicate member) full
  count := by
    rw [occupied, List.countP_replicate]
    rfl

theorem vacant_empty {place : Nat} (here : slots[place]? = some 0) :
    vacant slots place = some (.ok place) := by
  simp only [vacant, here, ne_eq, not_true_eq_false, if_false]

theorem vacant_full {place : Nat} (go : vacant slots place = none) : slots[place]? ≠ some 0 := by
  intro here
  rw [vacant_empty here] at go
  cases go

theorem vacant_some {place : Nat} (inside : place < slots.length)
    {found : Except PfcPanic Nat} (stops : vacant slots place = some found) :
    slots[place]? = some 0 ∧ found = .ok place := by
  have slot := List.getElem?_eq_getElem inside
  by_cases full : slots[place] = 0
  · rw [full] at slot
    rw [vacant_empty slot] at stops
    cases stops
    exact ⟨slot, rfl⟩
  · rw [vacant, slot] at stops
    simp only [ne_eq, full, not_false_eq_true, if_true] at stops
    cases stops

/-- Filling the first empty slot from where the hash of a new term points places it. -/
theorem Placed.insert (placed : Placed hash m terms slots) {term : Bytes} {k : Nat}
    (few : terms.length + 1 < 2 ^ 56) (round : k < m)
    (here : slots[((hash term).val % m + k) % m]? = some 0)
    (first : ∀ j < k, slots[((hash term).val % m + j) % m]? ≠ some 0) :
    Placed hash m (terms ++ [term])
      (slots.set (((hash term).val % m + k) % m) (slotOf hash terms.length term)) := by
  have full : slotOf hash terms.length term ≠ 0 := slotOf_ne_zero few term
  have inside : ((hash term).val % m + k) % m < slots.length :=
    (List.getElem?_eq_some_iff.mp here).1
  -- Filling a slot empties none.
  have filled : ∀ place : Nat, slots[place]? ≠ some 0 →
      (slots.set (((hash term).val % m + k) % m) (slotOf hash terms.length term))[place]?
        ≠ some 0 := by
    intro place occupied
    by_cases same : ((hash term).val % m + k) % m = place
    · rw [← same, List.getElem?_set_self inside]
      exact fun zero => full (Option.some.inj zero)
    · rwa [List.getElem?_set_ne same]
  refine ⟨?_, ?_, ?_, ?_⟩
  · rw [List.length_set, placed.length]
  · intro ordinal t there
    by_cases old : ordinal < terms.length
    · rw [List.getElem?_append_left old] at there
      obtain ⟨k', round', stands, run⟩ := placed.reached ordinal t there
      refine ⟨k', round', ?_, fun j less => filled _ (run j less)⟩
      rw [List.getElem?_set_ne, stands]
      intro same
      rw [← same, here] at stands
      have less : ordinal + 1 < 2 ^ 56 := by omega
      exact slotOf_ne_zero less t (Option.some.inj stands).symm
    · have last : ordinal = terms.length := by
        have bound := (List.getElem?_eq_some_iff.mp there).1
        rw [List.length_append, List.length_singleton] at bound
        omega
      subst last
      rw [List.getElem?_concat_length] at there
      cases there
      exact ⟨k, round, List.getElem?_set_self inside, fun j less => filled _ (first j less)⟩
  · intro slot member occupied
    rcases List.mem_or_eq_of_mem_set member with old | rfl
    · obtain ⟨ordinal, t, there, same⟩ := placed.owned slot old occupied
      refine ⟨ordinal, t, ?_, same⟩
      rw [List.getElem?_append_left (List.getElem?_eq_some_iff.mp there).1, there]
    · exact ⟨terms.length, term, List.getElem?_concat_length, rfl⟩
  · rw [occupied_set here full, placed.count, List.length_append, List.length_singleton]

/-- With more slots than terms, every term finds an empty slot. -/
theorem insertAll_ok {mask : Nat} (ring : ∀ x, x &&& mask = x % m) {rest : List Bytes}
    (placed : Placed hash m terms slots) (few : terms.length + rest.length < 2 ^ 56)
    (room : terms.length + rest.length < m) :
    ∃ slots', (∀ fuel, m ≤ fuel →
        insertAll hash mask fuel rest terms.length slots = some (.ok slots')) ∧
      Placed hash m (terms ++ rest) slots' := by
  induction rest generalizing terms slots with
  | nil => exact ⟨slots, fun _ _ => rfl, by rwa [List.append_nil]⟩
  | cons term rest ih =>
      rw [List.length_cons] at few room
      obtain ⟨place, within, empty⟩ := exists_vacant
        (show occupied slots < slots.length by rw [placed.count, placed.length]; omega)
      have start : (hash term).val % m < m := Nat.mod_lt _ (by omega)
      have stops : vacant slots place ≠ none := by
        rw [vacant_empty empty]
        exact Option.some_ne_none _
      obtain ⟨k, found, round, here, first, probed⟩ := probe_ring
        (fun place => ring (place + 1)) start (placed.length ▸ within) stops
      have inside : ((hash term).val % m + k) % m < slots.length := by
        rw [placed.length]
        exact Nat.mod_lt _ (by omega)
      obtain ⟨zero, rfl⟩ := vacant_some inside here
      have more : Placed hash m (terms ++ [term]) _ :=
        placed.insert (by omega) round zero fun j less => vacant_full (first j less)
      have length : (terms ++ [term]).length = terms.length + 1 := List.length_append
      obtain ⟨slots', inserted, all⟩ := ih more (by omega) (by omega)
      refine ⟨slots', fun fuel enough => ?_, by rwa [List.append_assoc] at all⟩
      rw [insertAll, ring, probed fuel enough, ← length]
      exact inserted fuel enough

theorem slotCount_eq (n : Nat) : ∃ e, slotCount n = 2 ^ e ∧ 3 ≤ e ∧ 4 * n < 3 * slotCount n ∧
    (n < 2 ^ 56 → e ≤ 57) := by
  have least := Nat.le_pow_clog Nat.one_lt_two (n * 4 / 3 + 1)
  rw [slotCount, nextPowerOfTwo]
  rcases Nat.le_total (2 ^ Nat.clog 2 (n * 4 / 3 + 1)) 8 with few | many
  · rw [max_eq_right few]
    exact ⟨3, rfl, le_refl _, by omega, fun _ => by decide⟩
  · rw [max_eq_left many]
    refine ⟨_, rfl, ?_, by omega, fun small => ?_⟩
    · exact (Nat.pow_le_pow_iff_right Nat.one_lt_two).mp many
    · exact Nat.clog_le_of_le_pow (by omega)

/-! ## Searching -/

section Search

variable {p : Pfc} (answers : p.Answers terms) (placed : Placed hash m terms slots)
variable (few : terms.length < 2 ^ 56) (term : Bytes)
include answers few

/-- A slot ends the search for the term it is of, and for no other. -/
theorem candidate_slotOf {place ordinal : Nat} {t : Bytes} (there : terms[ordinal]? = some t)
    (here : slots[place]? = some (slotOf hash ordinal t)) :
    candidate hash slots term p place = if t = term then some (.ok (some ordinal)) else none := by
  have bound := (List.getElem?_eq_some_iff.mp there).1
  have less : ordinal + 1 < 2 ^ 56 := by omega
  have key := answers.get ordinal
  rw [there] at key
  simp only [candidate, here, if_neg (slotOf_ne_zero less t), slotOf_fingerprint less t,
    slotOf_ordinal less t, if_neg (Nat.succ_ne_zero ordinal), Nat.add_sub_cancel, key,
    Option.some.injEq]
  by_cases same : t = term
  · simp only [if_pos same, if_pos (show fingerprint hash t = fingerprint hash term by rw [same])]
  · simp only [if_neg same, ite_self]

include placed

/-- The search ends with what the section says. -/
theorem probe_candidate {mask fuel : Nat} (ring : ∀ x, x &&& mask = x % m) (enough : m ≤ fuel)
    (room : terms.length < m) :
    probe (fun place => (place + 1) &&& mask) (candidate hash slots term p) fuel
      ((hash term).val &&& mask) = some (p.locate term) := by
  obtain ⟨place, within, empty⟩ := exists_vacant
    (show occupied slots < slots.length by rw [placed.count, placed.length]; exact room)
  have start : (hash term).val % m < m := Nat.mod_lt _ (by omega)
  have ends : ∀ {place : Nat}, slots[place]? = some 0 →
      candidate hash slots term p place = some (.ok none) := fun here => by
    simp only [candidate, here, if_true]
  have stops : candidate hash slots term p place ≠ none := by
    rw [ends empty]
    exact Option.some_ne_none _
  obtain ⟨k, found, round, here, first, probed⟩ := probe_ring
    (fun place => ring (place + 1)) start (placed.length ▸ within) stops
  rw [ring, probed fuel enough]
  have inside : ((hash term).val % m + k) % m < slots.length := by
    rw [placed.length]
    exact Nat.mod_lt _ (by omega)
  have slot := List.getElem?_eq_getElem inside
  by_cases zero : slots[((hash term).val % m + k) % m] = 0
  · -- The search came to an empty slot, so the term stands nowhere before it.
    rw [zero] at slot
    cases here.symm.trans (ends slot)
    obtain ⟨r, located⟩ := answers.ends term
    cases r with
    | none => rw [located]
    | some ordinal =>
        have there := (answers.locate term ordinal).mp located
        obtain ⟨k', -, stands, run⟩ := placed.reached ordinal term there
        have bound := (List.getElem?_eq_some_iff.mp there).1
        have less : ordinal + 1 < 2 ^ 56 := by omega
        rcases Nat.lt_trichotomy k k' with before | rfl | after
        · exact absurd slot (run k before)
        · rw [slot] at stands
          exact absurd (Option.some.inj stands).symm (slotOf_ne_zero less term)
        · have go := first k' after
          rw [candidate_slotOf answers few term there stands, if_pos rfl] at go
          cases go
  · obtain ⟨ordinal, t, there, same⟩ := placed.owned _ (List.getElem_mem inside) zero
    rw [same] at slot
    rw [candidate_slotOf answers few term there slot] at here
    split at here
    · rename_i equal
      cases here
      rw [(answers.locate term ordinal).mpr (equal ▸ there)]
    · cases here

end Search

/-! ## Reading back -/

theorem isPowerOfTwo_two_pow (e : Nat) : isPowerOfTwo (2 ^ e) := by
  refine ⟨(Nat.two_pow_pos e).ne', ?_⟩
  rw [Nat.and_two_pow_sub_one_eq_mod, Nat.mod_self]

/-- What was built reads back as it was. -/
theorem Placed.deserialize {e : Nat} (placed : Placed hash (2 ^ e) terms slots) (least : 3 ≤ e)
    (most : e ≤ 57) (load : 4 * terms.length < 3 * 2 ^ e) (few : terms.length < 2 ^ 56) :
    deserialize (serialize ⟨slots⟩) terms.length = .ok ⟨slots⟩ := by
  have eight : 2 ^ 3 ≤ 2 ^ e := Nat.pow_le_pow_right (by decide) least
  have bound : 2 ^ e ≤ 2 ^ 57 := Nat.pow_le_pow_right (by decide) most
  have length := placed.length
  have words : ∀ slot ∈ slots, slot < 2 ^ 64 := by
    intro slot member
    by_cases full : slot = 0
    · rw [full]
      decide
    · obtain ⟨ordinal, t, there, rfl⟩ := placed.owned slot member full
      have inside := (List.getElem?_eq_some_iff.mp there).1
      exact slotOf_lt (by omega) t
  have owned : (slots.any fun s => s ≠ 0 ∧ (s &&& ordinalMask = 0 ∨
      terms.length < s &&& ordinalMask)) = false := by
    rw [List.any_eq_false]
    intro slot member outside
    obtain ⟨full, outside⟩ := of_decide_eq_true outside
    obtain ⟨ordinal, t, there, rfl⟩ := placed.owned slot member full
    have inside := (List.getElem?_eq_some_iff.mp there).1
    rw [slotOf_ordinal (by omega) t] at outside
    omega
  have loaded : ¬ (terms.length ≠ terms.length ∨
      slots.length * 3 % 2 ^ 64 < terms.length * 4 % 2 ^ 64) := by
    rw [length, Nat.mod_eq_of_lt (show 2 ^ e * 3 < 2 ^ 64 by omega),
      Nat.mod_eq_of_lt (show terms.length * 4 < 2 ^ 64 by omega)]
    omega
  have ahead := ByteCursor.ahead_new (serialize ⟨slots⟩)
  rw [serialize] at ahead
  obtain ⟨c₁, first, ahead⟩ :=
    ByteCursor.readU64_ahead (show slots.length < 2 ^ 64 by omega) ahead
  obtain ⟨c₂, second, ahead⟩ := ByteCursor.readU64_ahead
    (show occupied slots < 2 ^ 64 by rw [placed.count]; omega) ahead
  rw [← List.append_nil (writeU64s slots)] at ahead
  obtain ⟨c₃, third, ahead⟩ :=
    ByteCursor.takeWords_ahead words (show slots.length * 8 < 2 ^ 64 by omega) ahead
  rw [HashSidecar.deserialize, serialize]
  change ((ByteCursor.new _).readU64 >>= _) = _
  rw [first, ok_bind]
  change (c₁.readU64 >>= _) = _
  rw [second, ok_bind]
  change (if ¬ isPowerOfTwo slots.length ∨ slots.length < 8 then _ else _) = _
  rw [if_neg (by rw [length]; exact not_or.mpr ⟨not_not.mpr (isPowerOfTwo_two_pow e), by omega⟩)]
  change (if occupied slots ≠ terms.length ∨
    slots.length * 3 % 2 ^ 64 < occupied slots * 4 % 2 ^ 64 then _ else _) = _
  rw [placed.count, if_neg loaded]
  change (c₂.takeWords slots.length >>= _) = _
  rw [third, ok_bind]
  change (if c₃.remaining ≠ 0 then _ else _) = _
  rw [if_neg (show ¬ c₃.remaining ≠ 0 from not_not.mpr ahead.remaining)]
  change (if (slots.any _) = true then _ else _) = _
  rw [owned, if_neg Bool.false_ne_true]
  change (if occupied slots ≠ terms.length then _ else _) = _
  rw [if_neg (not_not.mpr placed.count)]
  rfl

/-! ## Any section, any hash -/

/-- With fuel for one round, the table is built, and it and its copy find what the dictionary
finds. -/
theorem build_ok (hash : Bytes → Fin (2 ^ 64)) {p : Pfc} (lists : p.Lists terms)
    (ascending : terms.Pairwise (· < ·)) (few : terms.length < 2 ^ 56) :
    ∃ enough side, (∀ fuel, enough ≤ fuel → build hash fuel p = some (.ok side) ∧
        ∀ term, side.locate hash fuel term p = some (p.locate term)) ∧
      HashSidecar.deserialize side.serialize p.n = .ok side := by
  have answers := lists.answers ascending
  have size := lists.size
  obtain ⟨e, count, least, load, most⟩ := slotCount_eq p.n
  rw [count, size] at load
  have ring : ∀ x, x &&& (2 ^ e - 1) = x % 2 ^ e := fun x => Nat.and_two_pow_sub_one_eq_mod x e
  have room : terms.length < 2 ^ e := by omega
  obtain ⟨slots, inserted, placed⟩ := insertAll_ok ring (placed_empty hash (2 ^ e))
    (show ([] : List Bytes).length + terms.length < 2 ^ 56 by rwa [List.length_nil, Nat.zero_add])
    (by rwa [List.length_nil, Nat.zero_add])
  rw [List.nil_append] at placed
  rw [List.length_nil] at inserted
  refine ⟨2 ^ e, ⟨slots⟩, fun fuel enough => ⟨?_, fun term => ?_⟩, ?_⟩
  · rw [build, answers.iter]
    simp only [count]
    rw [inserted fuel enough]
  · have some : ¬ slots.length = 0 := by
      rw [placed.length]
      exact (Nat.two_pow_pos e).ne'
    rw [locate, if_neg some]
    change probe (fun place => (place + 1) &&& (slots.length - 1)) _ fuel
      ((hash term).val &&& (slots.length - 1)) = _
    rw [placed.length]
    exact probe_candidate answers placed few term ring enough room
  · rw [size]
    exact placed.deserialize least (most (by omega)) load few

/-- Built for a sorted section under any hash, the sidecar and what is read back of its bytes
agree with the dictionary on every byte string. -/
theorem build_locates (hash : Bytes → Fin (2 ^ 64)) {blockSize : Nat} (positive : 1 ≤ blockSize)
    {keys : List Bytes} (ascending : keys.Pairwise (· < ·))
    (fits : ∀ key ∈ keys, key.length < 2 ^ 64) (few : keys.length < 2 ^ 56) :
    ∃ enough side copy, HashSidecar.deserialize (side.serialize) (Pfc.ofKeys blockSize keys).n
        = .ok copy ∧
      ∀ fuel, enough ≤ fuel →
        build hash fuel (Pfc.ofKeys blockSize keys) = some (.ok side) ∧
        ∀ term, side.locate hash fuel term (Pfc.ofKeys blockSize keys)
            = some ((Pfc.ofKeys blockSize keys).locate term) ∧
          copy.locate hash fuel term (Pfc.ofKeys blockSize keys)
            = some ((Pfc.ofKeys blockSize keys).locate term) := by
  obtain ⟨enough, side, built, copied⟩ :=
    build_ok hash (Pfc.took_ofKeys positive fits).lists ascending few
  refine ⟨enough, side, side, copied, fun fuel fuels => ⟨(built fuel fuels).1, fun term => ?_⟩⟩
  exact ⟨(built fuel fuels).2 term, (built fuel fuels).2 term⟩

/-- Under a hash that tells no term from another. -/
theorem build_locates_colliding :
    ∃ enough side copy, HashSidecar.deserialize (side.serialize) (Pfc.ofKeys 4 [[97], [98]]).n
        = .ok copy ∧
      ∀ fuel, enough ≤ fuel →
        build (fun _ => 7) fuel (Pfc.ofKeys 4 [[97], [98]]) = some (.ok side) ∧
        ∀ term, side.locate (fun _ => 7) fuel term (Pfc.ofKeys 4 [[97], [98]])
            = some ((Pfc.ofKeys 4 [[97], [98]]).locate term) ∧
          copy.locate (fun _ => 7) fuel term (Pfc.ofKeys 4 [[97], [98]])
            = some ((Pfc.ofKeys 4 [[97], [98]]).locate term) :=
  build_locates (fun _ => 7) (by decide) (by decide) (by decide) (by decide)

end HashSidecar

end Graphy
