import Graphy.Core.Proofs.Text
import Graphy.Pipe.Meaning

/-!
# Copies of events

A quad whose offsets fit is read back from its copy, its identity is that of its terms, and a
batch with room for an event gives back what was pushed.
-/

namespace Graphy.Pipe

theorem asU32_of_lt {n : Nat} (small : n < 2 ^ 32) : asU32 n = n := Nat.mod_eq_of_lt small

/-! ## Slices -/

theorem sliceAt_middle (a b c : Bytes) :
    sliceAt (a ++ b ++ c) a.length (a ++ b).length = some b := by
  have inside : a.length ≤ (a ++ b).length ∧ (a ++ b).length ≤ (a ++ b ++ c).length := by
    simp only [List.length_append]
    omega
  rw [sliceAt, if_pos inside, slice, List.append_assoc, List.drop_left, List.length_append,
    Nat.add_sub_cancel_left, List.take_left]

theorem sliceAt_front (b c : Bytes) : sliceAt (b ++ c) 0 b.length = some b := by
  simpa using sliceAt_middle [] b c

theorem sliceAt_back (a b : Bytes) : sliceAt (a ++ b) a.length (a ++ b).length = some b := by
  simpa using sliceAt_middle a b []

/-- Bytes behind the slice make no difference. -/
theorem sliceAt_append {bytes found : Bytes} {start stop : Nat}
    (slices : sliceAt bytes start stop = some found) (more : Bytes) :
    sliceAt (bytes ++ more) start stop = some found := by
  rw [sliceAt] at slices
  split at slices
  case isFalse => cases slices
  case isTrue inside =>
    obtain ⟨ordered, bound⟩ := inside
    have inside' : start ≤ stop ∧ stop ≤ (bytes ++ more).length :=
      ⟨ordered, bound.trans (by simp)⟩
    rw [sliceAt, if_pos inside', ← slices, slice, slice, List.drop_append_of_le_length (by omega),
      List.take_append_of_le_length (by rw [List.length_drop]; omega)]

/-! ## Owned quads -/

namespace OwnedQuad

theorem asRef_fromRef {q : QuadRef} (packable : Packable q) : (fromRef q).asRef = some q := by
  obtain ⟨s, p, o, g, shorthand⟩ := q
  obtain ⟨upToP, upToO⟩ := packable
  have sp : (s ++ p).length < 2 ^ 32 := by rwa [List.length_append]
  have pAt : asU32 s.length = s.length := asU32_of_lt (Nat.lt_of_le_of_lt (Nat.le_add_right _ _) upToP)
  have oAt : asU32 (s ++ p).length = (s ++ p).length := asU32_of_lt sp
  cases g with
  | none =>
      have first := sliceAt_front s (p ++ o)
      have second := sliceAt_middle s p o
      have third := sliceAt_back (s ++ p) o
      rw [← List.append_assoc] at first
      simp only [fromRef, asRef, pAt, oAt, if_pos, first, second, third, Option.bind_eq_bind,
        Option.bind_some, Option.pure_def]
  | some g =>
      have below : (s ++ p ++ o).length < u32Max := by
        rw [List.length_append, List.length_append]
        exact upToO nofun
      have gAt : asU32 (s ++ p ++ o).length = (s ++ p ++ o).length :=
        asU32_of_lt (below.trans (by decide))
      have first := sliceAt_front s (p ++ (o ++ g))
      have second := sliceAt_middle s p (o ++ g)
      have third := sliceAt_middle (s ++ p) o g
      have fourth := sliceAt_back (s ++ p ++ o) g
      rw [← List.append_assoc, ← List.append_assoc] at first
      rw [← List.append_assoc] at second
      simp only [fromRef, asRef, pAt, oAt, gAt, if_neg below.ne, first, second, third, fourth,
        Option.bind_eq_bind, Option.bind_some, Option.map_some, Option.pure_def]

/-- A copy reads back to the terms of its identity. -/
theorem terms_asRef {a b : OwnedQuad} (same : a.identity = b.identity) :
    a.asRef.map terms = b.asRef.map terms := by
  obtain ⟨bytes, pAt, oAt, gAt, shorthand⟩ := a
  obtain ⟨bytes', pAt', oAt', gAt', shorthand'⟩ := b
  simp only [identity, Prod.mk.injEq] at same
  obtain ⟨rfl, rfl, rfl, rfl⟩ := same
  simp only [asRef, Option.bind_eq_bind, Option.pure_def, Option.map_bind, Function.comp_def,
    Option.map_some, terms]

theorem identity_fromRef {q q' : QuadRef} (same : terms q = terms q') :
    (fromRef q).identity = (fromRef q').identity := by
  obtain ⟨s, p, o, g, shorthand⟩ := q
  obtain ⟨s', p', o', g', shorthand'⟩ := q'
  simp only [terms, Prod.mk.injEq] at same
  obtain ⟨rfl, rfl, rfl, rfl⟩ := same
  cases g <;> rfl

/-- Copies are the same quad when their terms are. -/
theorem identity_iff {q q' : QuadRef} (packable : Packable q) (packable' : Packable q') :
    (fromRef q).identity = (fromRef q').identity ↔ terms q = terms q' := by
  refine ⟨fun same => ?_, identity_fromRef⟩
  have read := terms_asRef same
  rw [asRef_fromRef packable, asRef_fromRef packable', Option.map_some, Option.map_some] at read
  exact Option.some.inj read

end OwnedQuad

/-! ## Batches -/

namespace EventBatch

theorem textAt_append {bytes : Bytes} {start stop : Nat} {text : String}
    (reads : textAt bytes start stop = some text) (more : Bytes) :
    textAt (bytes ++ more) start stop = some text := by
  rw [textAt, Option.bind_eq_bind] at reads ⊢
  obtain ⟨found, slices, decodes⟩ := Option.bind_eq_some_iff.mp reads
  rw [sliceAt_append slices more, Option.bind_some, decodes]

/-- Items stay what they are when the arena grows. -/
theorem event_append {bytes : Bytes} {item : Item} {ev : Event}
    (reads : event bytes item = some ev) (more : Bytes) : event (bytes ++ more) item = some ev := by
  cases item with
  | quad start sEnd pEnd oEnd gEnd shorthand =>
      simp only [event, Option.bind_eq_bind, Option.bind_eq_some_iff, Option.pure_def,
        Option.some.injEq] at reads
      obtain ⟨s, hs, p, hp, o, ho, g, hg, rfl⟩ := reads
      simp only [event, Option.bind_eq_bind, sliceAt_append hs more, sliceAt_append hp more,
        sliceAt_append ho more, Option.bind_some]
      split at hg
      case isTrue same =>
        rw [if_pos same, hg]
        rfl
      case isFalse other =>
        obtain ⟨found, slices, rfl⟩ := Option.map_eq_some_iff.mp hg
        rw [if_neg other, sliceAt_append slices more]
        rfl
  | declared start nameEnd iriEnd =>
      simp only [event, Option.bind_eq_bind, Option.bind_eq_some_iff, Option.pure_def,
        Option.some.injEq] at reads
      obtain ⟨name, hn, iri, hi, rfl⟩ := reads
      simp only [event, Option.bind_eq_bind, textAt_append hn more, textAt_append hi more,
        Option.bind_some]
      rfl

theorem textAt_of_sliceAt {bytes : Bytes} {start stop : Nat} {text : String}
    (slices : sliceAt bytes start stop = some (strBytes text)) :
    textAt bytes start stop = some text := by
  rw [textAt, slices, Option.bind_eq_bind, Option.bind_some, strBytes_eq_encode,
    Utf8.fromUTF8?_encode, String.ofList_toList]

/-- The arena after an event. -/
theorem byteLen_push (batch : EventBatch) (ev : Event) :
    (batch.push ev).byteLen = batch.byteLen + ev.size := by
  cases ev <;> simp only [push, byteLen, Event.size, List.length_append] <;> omega

theorem len_push (batch : EventBatch) (ev : Event) : (batch.push ev).len = batch.len + 1 := by
  cases ev <;> simp only [push, len, List.length_append, List.length_singleton]

/-- An event pushed with room for it is read back. -/
theorem event_push {batch : EventBatch} {ev : Event} (room : batch.byteLen + ev.size < 2 ^ 32)
    (named : ∀ q, ev = .quad q → NamesGraph q) :
    ∃ item, (batch.push ev).items = batch.items ++ [item] ∧
      event (batch.push ev).bytes item = some ev := by
  obtain ⟨bytes, items⟩ := batch
  cases ev with
  | quad q =>
      obtain ⟨s, p, o, g, shorthand⟩ := q
      have named := named _ rfl
      simp only [byteLen, Event.size] at room
      refine ⟨_, rfl, ?_⟩
      have b0 : asU32 bytes.length = bytes.length := asU32_of_lt (by omega)
      have b1 : asU32 (bytes ++ s).length = (bytes ++ s).length :=
        asU32_of_lt (by simp only [List.length_append]; omega)
      have b2 : asU32 (bytes ++ s ++ p).length = (bytes ++ s ++ p).length :=
        asU32_of_lt (by simp only [List.length_append]; omega)
      have b3 : asU32 (bytes ++ s ++ p ++ o).length = (bytes ++ s ++ p ++ o).length :=
        asU32_of_lt (by simp only [List.length_append]; omega)
      have b4 : asU32 (bytes ++ s ++ p ++ o ++ g.getD []).length
          = (bytes ++ s ++ p ++ o ++ g.getD []).length :=
        asU32_of_lt (by simp only [List.length_append]; omega)
      have first := sliceAt_append (sliceAt_back bytes s) (p ++ (o ++ g.getD []))
      have second := sliceAt_append (sliceAt_back (bytes ++ s) p) (o ++ g.getD [])
      have third := sliceAt_append (sliceAt_back (bytes ++ s ++ p) o) (g.getD [])
      have fourth := sliceAt_back (bytes ++ s ++ p ++ o) (g.getD [])
      rw [← List.append_assoc, ← List.append_assoc] at first
      rw [← List.append_assoc] at second
      simp only [push, event, b0, b1, b2, b3, b4, first, second, third, Option.bind_eq_bind,
        Option.bind_some]
      cases g with
      | none =>
          rw [if_pos (by simp)]
          rfl
      | some g =>
          have bytes_of_graph : g ≠ [] := fun empty => named (by rw [empty])
          have apart : (bytes ++ s ++ p ++ o ++ (some g).getD []).length
              ≠ (bytes ++ s ++ p ++ o).length := by
            rw [List.length_append, Option.getD_some]
            have := List.length_pos_iff.mpr bytes_of_graph
            omega
          rw [if_neg apart, fourth]
          rfl
  | declared name iri =>
      simp only [byteLen, Event.size] at room
      refine ⟨_, rfl, ?_⟩
      have b0 : asU32 bytes.length = bytes.length := asU32_of_lt (by omega)
      have b1 : asU32 (bytes ++ strBytes name).length = (bytes ++ strBytes name).length :=
        asU32_of_lt (by simp only [List.length_append]; omega)
      have b2 : asU32 (bytes ++ strBytes name ++ strBytes iri).length
          = (bytes ++ strBytes name ++ strBytes iri).length :=
        asU32_of_lt (by simp only [List.length_append]; omega)
      have first := textAt_of_sliceAt
        (sliceAt_append (sliceAt_back bytes (strBytes name)) (strBytes iri))
      have second := textAt_of_sliceAt (sliceAt_back (bytes ++ strBytes name) (strBytes iri))
      simp only [push, event, b0, b1, b2, first, second, Option.bind_eq_bind, Option.bind_some]
      rfl

/-- A batch of some events. -/
def Holds (batch : EventBatch) (evs : List Event) : Prop := batch.events = evs.map some

theorem Holds.empty : empty.Holds [] := rfl

theorem Holds.push {batch : EventBatch} {evs : List Event} {ev : Event} (holds : batch.Holds evs)
    (room : batch.byteLen + ev.size < 2 ^ 32) (named : ∀ q, ev = .quad q → NamesGraph q) :
    (batch.push ev).Holds (evs ++ [ev]) := by
  obtain ⟨item, items, reads⟩ := event_push room named
  obtain ⟨more, arena⟩ : ∃ more, (batch.push ev).bytes = batch.bytes ++ more := by
    cases ev with
    | quad q => exact ⟨q.s ++ (q.p ++ (q.o ++ q.g.getD [])), by
        simp only [EventBatch.push, List.append_assoc]⟩
    | declared name iri => exact ⟨strBytes name ++ strBytes iri, by
        simp only [EventBatch.push, List.append_assoc]⟩
  have old : batch.items.map (event (batch.push ev).bytes) = batch.items.map (event batch.bytes) := by
    refine List.map_congr_left fun old member => ?_
    have here : event batch.bytes old ∈ evs.map some := by
      rw [← holds]
      exact List.mem_map_of_mem member
    obtain ⟨ev', -, reads'⟩ := List.mem_map.mp here
    rw [arena, ← reads', event_append reads'.symm more]
  rw [Holds, events, items, List.map_append, old, List.map_append, List.map_singleton, reads,
    List.map_singleton]
  exact congrArg (· ++ [some ev]) holds

/-- The batch that some events are pushed into. -/
def pack (evs : List Event) : EventBatch := evs.foldl push empty

theorem pack_concat (evs : List Event) (ev : Event) : pack (evs ++ [ev]) = (pack evs).push ev := by
  rw [pack, List.foldl_append]
  rfl

theorem len_pack (evs : List Event) : (pack evs).len = evs.length := by
  induction evs using List.reverseRecOn with
  | nil => rfl
  | append_singleton evs ev ih => rw [pack_concat, len_push, ih, List.length_append]; rfl

/-- A batch below 4 GiB is read back. -/
theorem events_pack {evs : List Event} (small : (pack evs).byteLen < 2 ^ 32)
    (named : ∀ q ∈ evs.filterMap Event.quad?, NamesGraph q) :
    (pack evs).events = evs.map some := by
  induction evs using List.reverseRecOn with
  | nil => rfl
  | append_singleton evs ev ih =>
      rw [List.filterMap_append] at named
      rw [pack_concat, byteLen_push] at small
      rw [pack_concat]
      refine Holds.push (ih (Nat.lt_of_le_of_lt (Nat.le_add_right _ _) small)
        fun q member => named q (List.mem_append_left _ member)) small ?_
      rintro q rfl
      exact named q (List.mem_append_right _ List.mem_cons_self)

end EventBatch

end Graphy.Pipe
