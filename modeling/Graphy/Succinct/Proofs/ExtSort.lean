import Graphy.Succinct.ExtSort
import Mathlib.Data.List.Forall2
import Mathlib.Data.List.Induction

/-!
# External sorting sorts

A merge of ascending runs gives all their records in ascending order, each as often as the
runs hold it.  Merging groups of runs into one loses nothing and leaves fewer runs, so the
sorter yields what was pushed into it.
-/

namespace Graphy

open scoped List

/-! ## Lists of lists -/

section Lists

variable {α : Type}

theorem flatten_set_perm {x : α} {rest : List α} :
    ∀ {lists : List (List α)} {i : Nat}, lists[i]? = some (x :: rest) →
      lists.flatten.Perm (x :: (lists.set i rest).flatten)
  | [], i, there => by cases there
  | l :: lists, 0, there => by
      cases there
      exact List.Perm.refl _
  | l :: lists, i + 1, there => by
      have moved : (l ++ lists.flatten).Perm (l ++ (x :: (lists.set i rest).flatten)) :=
        (flatten_set_perm (i := i) there).append_left l
      exact moved.trans List.perm_middle

/-- The first records of the lists, with their places from `i` on. -/
def headsFrom : Nat → List (List α) → List (α ×ₗ Nat)
  | _, [] => []
  | i, [] :: lists => headsFrom (i + 1) lists
  | i, (r :: _) :: lists => toLex (r, i) :: headsFrom (i + 1) lists

theorem mem_headsFrom {x : α ×ₗ Nat} : ∀ {i : Nat} {lists : List (List α)},
    x ∈ headsFrom i lists ↔
      ∃ j l, (ofLex x).2 = i + j ∧ lists[j]? = some ((ofLex x).1 :: l)
  | i, [] => by simp [headsFrom]
  | i, [] :: lists => by
      rw [headsFrom, mem_headsFrom]
      constructor
      · rintro ⟨j, l, place, there⟩
        exact ⟨j + 1, l, by omega, there⟩
      · rintro ⟨j, l, place, there⟩
        cases j with
        | zero => cases there
        | succ j => exact ⟨j, l, by omega, there⟩
  | i, (r :: rest) :: lists => by
      rw [headsFrom, List.mem_cons, mem_headsFrom]
      constructor
      · rintro (rfl | ⟨j, l, place, there⟩)
        · exact ⟨0, rest, rfl, rfl⟩
        · exact ⟨j + 1, l, by omega, there⟩
      · rintro ⟨j, l, place, there⟩
        cases j with
        | zero =>
            cases there
            exact Or.inl (ofLex_inj.mp (Prod.ext rfl place))
        | succ j => exact Or.inr ⟨j, l, by omega, there⟩

theorem headsFrom_distinct : ∀ (i : Nat) (lists : List (List α)),
    ((headsFrom i lists).map fun x => (ofLex x).2).Nodup
  | i, [] => List.nodup_nil
  | i, [] :: lists => headsFrom_distinct (i + 1) lists
  | i, (r :: rest) :: lists => by
      rw [headsFrom, List.map_cons, List.nodup_cons]
      refine ⟨fun member => ?_, headsFrom_distinct (i + 1) lists⟩
      obtain ⟨x, listed, same⟩ := List.mem_map.mp member
      obtain ⟨j, l, place, -⟩ := mem_headsFrom.mp listed
      change (ofLex x).2 = i at same
      omega

theorem headsFrom_perm : ∀ (i : Nat) (lists : List (List α)),
    ((headsFrom i lists).map (fun x => (ofLex x).1) ++ (lists.map List.tail).flatten).Perm
      lists.flatten
  | i, [] => List.Perm.refl _
  | i, [] :: lists => headsFrom_perm (i + 1) lists
  | i, (r :: rest) :: lists => by
      have others := (headsFrom_perm (i + 1) lists).append_left rest
      refine List.Perm.cons r (List.Perm.trans ?_ others)
      change ((headsFrom (i + 1) lists).map (fun x => (ofLex x).1)
        ++ (rest ++ (lists.map List.tail).flatten)).Perm _
      rw [← List.append_assoc, ← List.append_assoc]
      exact List.perm_append_comm.append_right _

end Lists

variable {R : Type} [LinearOrder R]

theorem sortUnstable_perm (records : List R) : (sortUnstable records).Perm records :=
  List.perm_insertionSort _ records

theorem sortUnstable_ascending (records : List R) :
    (sortUnstable records).Pairwise (· ≤ ·) :=
  List.pairwise_insertionSort _ records

/-- Records in ascending order are determined by how often each is there. -/
theorem eq_sortUnstable {out records : List R} (ascending : out.Pairwise (· ≤ ·))
    (perm : out.Perm records) : out = sortUnstable records :=
  (perm.trans (sortUnstable_perm records).symm).eq_of_pairwise
    (fun _ _ _ _ => le_antisymm) ascending (sortUnstable_ascending records)

/-! ## Readers of runs -/

variable [Record R]

/-- The reader has these records ahead, ascending. -/
structure RunReader.Holds (rd : RunReader) (records : List R) : Prop where
  reader : rd.reader = writeRecords records
  remaining : rd.remaining = records.length
  ascending : records.Pairwise (· ≤ ·)

namespace RunReader

theorem Holds.nextRecord_nil {rd : RunReader} (holds : rd.Holds ([] : List R)) :
    rd.nextRecord (R := R) = .ok none := by
  have done : rd.remaining = 0 := holds.remaining
  rw [nextRecord, if_pos done]

theorem Holds.nextRecord_cons {rd : RunReader} {r : R} {records : List R}
    (holds : rd.Holds (r :: records)) :
    ∃ rd', rd.nextRecord = .ok (some (r, rd')) ∧ rd'.Holds records := by
  have file : rd.reader = Record.writeBytes r ++ writeRecords records := holds.reader
  have more : rd.remaining = records.length + 1 := holds.remaining
  have size := Record.length_writeBytes r
  have read : readExact (Record.size R) rd.reader
      = .ok (Record.writeBytes r, writeRecords records) := by
    rw [readExact, if_neg (by rw [file, List.length_append]; omega), file,
      List.take_left' size, List.drop_left' size]
  refine ⟨⟨writeRecords records, rd.remaining - 1⟩, ?_, rfl, ?_, holds.ascending.of_cons⟩
  · rw [nextRecord, if_neg (by omega), read]
    change Except.ok (some (Record.readBytes (Record.writeBytes r), _)) = _
    rw [Record.readBytes_writeBytes]
  · rw [more, Nat.add_sub_cancel]

/-- A written run holds what was written to it. -/
theorem holds_openRun {records : List R} {n : Nat} (count : n = records.length)
    (ascending : records.Pairwise (· ≤ ·)) : (openRun ⟨writeRecords records, n⟩).Holds records :=
  ⟨rfl, count, ascending⟩

end RunReader

/-! ## Merging -/

namespace Merge

/-- The merge has the records of its heap and of the lists ahead.  Every list that is not at its
end has one record in the heap, which is at most the others. -/
structure Pending (m : Merge R) (lists : List (List R)) : Prop where
  readers : ∀ (i : Nat) (l : List R), lists[i]? = some l →
    ∃ rd : RunReader, m.readers[i]? = some rd ∧ rd.Holds l
  distinct : (m.heap.items.map fun x => (ofLex x).2).Nodup
  heads : ∀ x ∈ m.heap.items, ∃ l, lists[(ofLex x).2]? = some l ∧ ∀ y ∈ l, (ofLex x).1 ≤ y
  fed : ∀ (i : Nat) (l : List R), lists[i]? = some l → l ≠ [] → ∃ x ∈ m.heap.items, (ofLex x).2 = i

/-- The records ahead of the merge. -/
def content (m : Merge R) (lists : List (List R)) : List R :=
  m.heap.items.map (fun x => (ofLex x).1) ++ lists.flatten

variable {m : Merge R} {lists : List (List R)}

theorem Pending.nextRecord_none (pending : m.Pending lists) (bare : m.heap.items = []) :
    m.nextRecord = .ok none ∧ content m lists = [] := by
  constructor
  · rw [nextRecord, MinHeap.pop_none bare]
  · rw [content, bare, List.map_nil, List.nil_append, List.flatten_eq_nil_iff]
    intro l member
    by_contra more
    obtain ⟨i, there⟩ := List.mem_iff_getElem?.mp member
    obtain ⟨x, inHeap, -⟩ := pending.fed i l there more
    rw [bare] at inHeap
    cases inHeap

/-- The head of the heap is at most everything ahead. -/
theorem Pending.head_le (pending : m.Pending lists) {x : R ×ₗ Nat} {items : List (R ×ₗ Nat)}
    (first : m.heap.items = x :: items) : ∀ y ∈ content m lists, (ofLex x).1 ≤ y := by
  obtain ⟨-, -, -, least⟩ := MinHeap.pop_some first
  have heads : ∀ z ∈ m.heap.items, (ofLex x).1 ≤ (ofLex z).1 := by
    intro z member
    rw [first, List.mem_cons] at member
    rcases member with rfl | later
    · exact le_refl _
    · exact Prod.Lex.monotone_fst _ _ (least z later)
  intro y member
  rw [content, List.mem_append, List.mem_map] at member
  rcases member with ⟨z, inHeap, rfl⟩ | inList
  · exact heads z inHeap
  · obtain ⟨l, listed, inside⟩ := List.mem_flatten.mp inList
    obtain ⟨i, there⟩ := List.mem_iff_getElem?.mp listed
    obtain ⟨z, inHeap, rfl⟩ := pending.fed i l there (List.ne_nil_of_mem inside)
    obtain ⟨l', here, below⟩ := pending.heads z inHeap
    cases there.symm.trans here
    exact (heads z inHeap).trans (below y inside)

/-- One step gives the head of the heap and keeps the rest ahead. -/
theorem Pending.nextRecord_some (pending : m.Pending lists) {x : R ×ₗ Nat}
    {items : List (R ×ₗ Nat)} (first : m.heap.items = x :: items) :
    ∃ m' lists', m.nextRecord = .ok (some ((ofLex x).1, m')) ∧ m'.Pending lists' ∧
      (content m lists).Perm ((ofLex x).1 :: content m' lists') := by
  obtain ⟨heap, popped, rest, -⟩ := MinHeap.pop_some first
  have distinct := pending.distinct
  rw [first, List.map_cons, List.nodup_cons] at distinct
  obtain ⟨others, distinct⟩ := distinct
  have inHeap : x ∈ m.heap.items := by
    rw [first]
    exact List.mem_cons_self
  have later : ∀ y ∈ heap.items, y ∈ m.heap.items := by
    intro y member
    rw [rest] at member
    rw [first]
    exact List.mem_cons_of_mem _ member
  have apart : ∀ y ∈ heap.items, (ofLex y).2 ≠ (ofLex x).2 := by
    intro y member same
    rw [rest] at member
    exact others (same ▸ List.mem_map_of_mem (f := fun x : R ×ₗ Nat => (ofLex x).2) member)
  obtain ⟨l, here, below⟩ := pending.heads x inHeap
  obtain ⟨rd, reader, holds⟩ := pending.readers _ _ here
  cases l with
  | nil =>
      -- The run is at its end: its head is not replaced.
      refine ⟨⟨m.readers, heap⟩, lists, ?_, ⟨pending.readers, ?_, ?_, ?_⟩, ?_⟩
      · simp only [nextRecord, popped, reader]
        rw [holds.nextRecord_nil]
        rfl
      · rwa [rest]
      · exact fun y member => pending.heads y (later y member)
      · intro i l there more
        obtain ⟨z, member, rfl⟩ := pending.fed i l there more
        rw [first, List.mem_cons] at member
        rcases member with rfl | member
        · cases there.symm.trans here
          exact absurd rfl more
        · exact ⟨z, rest ▸ member, rfl⟩
      · rw [content, content, first, rest]
        exact List.Perm.refl _
  | cons next l =>
      obtain ⟨rd', read, holds'⟩ := holds.nextRecord_cons
      have nextMost : ∀ y ∈ l, next ≤ y := fun y member =>
        List.rel_of_pairwise_cons holds.ascending member
      have inside : (ofLex x).2 < lists.length := (List.getElem?_eq_some_iff.mp here).1
      have insideReaders : (ofLex x).2 < m.readers.length := (List.getElem?_eq_some_iff.mp reader).1
      refine ⟨⟨m.readers.set (ofLex x).2 rd', heap.push (toLex (next, (ofLex x).2))⟩,
        lists.set (ofLex x).2 l, ?_, ⟨?_, ?_, ?_, ?_⟩, ?_⟩
      · simp only [nextRecord, popped, reader]
        rw [read]
        rfl
      · intro i l' there
        by_cases same : (ofLex x).2 = i
        · subst same
          rw [List.getElem?_set_self inside] at there
          cases there
          exact ⟨rd', List.getElem?_set_self insideReaders, holds'⟩
        · rw [List.getElem?_set_ne same] at there
          obtain ⟨rd, reader, holds⟩ := pending.readers i l' there
          exact ⟨rd, by rw [← reader]; exact List.getElem?_set_ne same, holds⟩
      · have perm := (heap.push_perm (toLex (next, (ofLex x).2))).map
          fun x : R ×ₗ Nat => (ofLex x).2
        rw [perm.nodup_iff, List.map_cons, List.nodup_cons, rest]
        exact ⟨others, distinct⟩
      · intro y member
        rcases MinHeap.mem_push.mp member with rfl | member
        · exact ⟨l, List.getElem?_set_self inside, nextMost⟩
        · obtain ⟨l', there, below⟩ := pending.heads y (later y member)
          exact ⟨l', by rw [← there]; exact List.getElem?_set_ne (apart y member).symm, below⟩
      · intro i l' there more
        by_cases same : (ofLex x).2 = i
        · exact ⟨_, MinHeap.mem_push.mpr (Or.inl rfl), same⟩
        · rw [List.getElem?_set_ne same] at there
          obtain ⟨z, member, rfl⟩ := pending.fed i l' there more
          rw [first, List.mem_cons] at member
          rcases member with rfl | member
          · exact absurd rfl same
          · exact ⟨z, MinHeap.mem_push.mpr (Or.inr (rest ▸ member)), rfl⟩
      · have heads := (heap.push_perm (toLex (next, (ofLex x).2))).map
          fun x : R ×ₗ Nat => (ofLex x).1
        have tail := flatten_set_perm here
        rw [content, content, first, ← rest]
        refine List.Perm.cons _ ?_
        calc (heap.items.map fun x => (ofLex x).1) ++ lists.flatten
            ~ (heap.items.map fun x => (ofLex x).1)
                ++ next :: (lists.set (ofLex x).2 l).flatten := tail.append_left _
          _ ~ next :: ((heap.items.map fun x => (ofLex x).1)
                ++ (lists.set (ofLex x).2 l).flatten) := List.perm_middle
          _ ~ _ := heads.symm.append_right _

/-- A merge with fuel for one step more than it has records gives them all, ascending. -/
theorem Pending.drain {fuel : Nat} {m : Merge R} {lists : List (List R)}
    (pending : m.Pending lists) (enough : (content m lists).length < fuel) :
    ∃ out, Merge.drain fuel m = .ok (some out) ∧ out.Perm (content m lists) ∧
      out.Pairwise (· ≤ ·) := by
  induction fuel generalizing m lists with
  | zero => omega
  | succ fuel ih =>
      cases first : m.heap.items with
      | nil =>
          obtain ⟨done, nothing⟩ := pending.nextRecord_none first
          refine ⟨[], ?_, ?_, List.Pairwise.nil⟩
          · rw [Merge.drain, done]
            rfl
          · rw [nothing]
      | cons x items =>
          obtain ⟨m', lists', step, pending', perm⟩ := pending.nextRecord_some first
          have fewer : (content m lists).length = (content m' lists').length + 1 := perm.length_eq
          obtain ⟨out, drained, same, ascending⟩ := ih pending' (by omega)
          refine ⟨(ofLex x).1 :: out, ?_, (same.cons _).trans perm.symm,
            ascending.cons fun y member => ?_⟩
          · rw [Merge.drain, step]
            change (Merge.drain fuel m' >>= _) = _
            rw [drained]
            rfl
          · exact pending.head_le first y
              (perm.mem_iff.mpr (List.mem_cons_of_mem _ (same.mem_iff.mp member)))

/-! ### Opening runs -/

/-- The readers have the lists ahead. -/
abbrev Reads (readers : List RunReader) (lists : List (List R)) : Prop :=
  List.Forall₂ RunReader.Holds readers lists

theorem prime_ok : ∀ {readers : List RunReader} {lists : List (List R)} (i : Nat)
    (heap : MinHeap (R ×ₗ Nat)), Reads readers lists →
      ∃ m, prime i readers heap = .ok m ∧ Reads m.readers (lists.map List.tail) ∧
        m.heap.items.Perm (headsFrom i lists ++ heap.items)
  | _, _, i, heap, .nil => ⟨⟨[], heap⟩, rfl, .nil, List.Perm.refl _⟩
  | rd :: readers, [] :: lists, i, heap, .cons holds others => by
      obtain ⟨m, primed, reads, heads⟩ := prime_ok (i + 1) heap others
      refine ⟨{ m with readers := rd :: m.readers }, ?_, .cons holds reads, heads⟩
      rw [prime, holds.nextRecord_nil]
      change (prime (i + 1) readers heap >>= _) = _
      rw [primed]
      rfl
  | rd :: readers, (r :: l) :: lists, i, heap, .cons holds others => by
      obtain ⟨rd', read, holds'⟩ := holds.nextRecord_cons
      obtain ⟨m, primed, reads, heads⟩ := prime_ok (i + 1) (heap.push (toLex (r, i))) others
      refine ⟨{ m with readers := rd' :: m.readers }, ?_, .cons holds' reads, ?_⟩
      · rw [prime, read]
        change (prime (i + 1) readers _ >>= _) = _
        rw [primed]
        rfl
      · exact (heads.trans ((heap.push_perm _).append_left _)).trans List.perm_middle

theorem Reads.reader {readers : List RunReader} {lists : List (List R)}
    (reads : Reads readers lists) (i : Nat) (l : List R) (there : lists[i]? = some l) :
    ∃ rd : RunReader, readers[i]? = some rd ∧ rd.Holds l := by
  obtain ⟨inside, rfl⟩ := List.getElem?_eq_some_iff.mp there
  have within : i < readers.length := reads.length_eq ▸ inside
  exact ⟨readers[i], List.getElem?_eq_getElem within, reads.get within inside⟩

theorem new_ok {runs : List Run} {lists : List (List R)}
    (reads : Reads (runs.map RunReader.openRun) lists) :
    ∃ m : Merge R, new runs = .ok m ∧ ∃ rests, m.Pending rests ∧
      (content m rests).Perm lists.flatten := by
  obtain ⟨m, primed, readers, heads⟩ := prime_ok 0 MinHeap.empty reads
  rw [MinHeap.items_empty, List.append_nil] at heads
  refine ⟨m, primed, lists.map List.tail, ⟨readers.reader, ?_, ?_, ?_⟩, ?_⟩
  · rw [(heads.map _).nodup_iff]
    exact headsFrom_distinct 0 lists
  · intro x member
    obtain ⟨j, l, place, there⟩ := mem_headsFrom.mp (heads.mem_iff.mp member)
    rw [Nat.zero_add] at place
    obtain ⟨rd, -, holds⟩ := reads.reader j _ there
    refine ⟨l, ?_, fun y inside => List.rel_of_pairwise_cons holds.ascending inside⟩
    rw [place, List.getElem?_map, there]
    rfl
  · intro i l there more
    rw [List.getElem?_map, Option.map_eq_some_iff] at there
    obtain ⟨l', there, rfl⟩ := there
    cases l' with
    | nil => exact absurd rfl more
    | cons r l =>
        exact ⟨toLex (r, i), heads.mem_iff.mpr
          (mem_headsFrom.mpr ⟨i, l, (Nat.zero_add i).symm, there⟩), rfl⟩
  · exact ((heads.map _).append_right _).trans (headsFrom_perm 0 lists)

/-- Merging runs gives their records, ascending. -/
theorem merged {runs : List Run} {lists : List (List R)}
    (reads : Reads (runs.map RunReader.openRun) lists) {fuel : Nat}
    (enough : lists.flatten.length < fuel) :
    ∃ m : Merge R, new runs = .ok m ∧ ∃ out, m.drain fuel = .ok (some out) ∧
      out.Perm lists.flatten ∧ out.Pairwise (· ≤ ·) := by
  obtain ⟨m, opened, rests, pending, perm⟩ := new_ok reads
  obtain ⟨out, drained, same, ascending⟩ := pending.drain (perm.length_eq ▸ enough)
  exact ⟨m, opened, out, drained, same.trans perm, ascending⟩

end Merge

/-! ## The sorter -/

namespace ExtSorter

open Merge

theorem mergeToRun_ok {group : List Run} {lists : List (List R)}
    (reads : Reads (group.map RunReader.openRun) lists) {fuel : Nat}
    (enough : lists.flatten.length < fuel) :
    ∃ run out, mergeToRun R fuel group = .ok (some run) ∧ (RunReader.openRun run).Holds out ∧
      out.Perm lists.flatten := by
  obtain ⟨m, opened, out, drained, perm, ascending⟩ := merged reads enough
  have count : (group.map Run.records).sum = out.length := by
    rw [perm.length_eq, List.length_flatten]
    congr 1
    have each : List.Forall₂ (fun (run : Run) l => run.records = List.length l) group lists :=
      (List.forall₂_map_left_iff.mp reads).imp fun _ _ holds => holds.remaining
    clear reads enough opened perm
    induction each with
    | nil => rfl
    | cons same _ ih => rw [List.map_cons, List.map_cons, same, ih]
  refine ⟨⟨writeRecords out, (group.map Run.records).sum⟩, out, ?_,
    RunReader.holds_openRun count ascending, perm⟩
  rw [mergeToRun, opened]
  change (m.drain fuel >>= _) = _
  rw [drained]
  rfl

/-- A fan-in of at least two leaves fewer runs at each pass, with the same records. -/
theorem collapse_ok {maxOpenRuns : Nat} (many : 2 ≤ maxOpenRuns) {fuel : Nat} {runs : List Run}
    {lists : List (List R)} (reads : Reads (runs.map RunReader.openRun) lists)
    (enough : lists.flatten.length + runs.length < fuel) :
    ∃ runs' lists', collapse R maxOpenRuns fuel runs = .ok (some runs') ∧
      Reads (runs'.map RunReader.openRun) lists' ∧ lists'.flatten.Perm lists.flatten := by
  induction fuel generalizing runs lists with
  | zero => omega
  | succ fuel ih =>
      by_cases fit : runs.length ≤ maxOpenRuns
      · exact ⟨runs, lists, by rw [collapse, if_pos fit], reads, List.Perm.refl _⟩
      · have parts : (lists.take maxOpenRuns).flatten ++ (lists.drop maxOpenRuns).flatten
            = lists.flatten := by
          rw [← List.flatten_append, List.take_append_drop]
        have sizes : (lists.take maxOpenRuns).flatten.length
            + (lists.drop maxOpenRuns).flatten.length = lists.flatten.length := by
          rw [← List.length_append, parts]
        have group : Reads ((runs.take maxOpenRuns).map RunReader.openRun)
            (lists.take maxOpenRuns) := by
          rw [List.map_take]
          exact List.forall₂_take maxOpenRuns reads
        obtain ⟨run, out, merged, holds, perm⟩ := mergeToRun_ok group
          (show (lists.take maxOpenRuns).flatten.length < fuel by omega)
        have reads' : Reads ((runs.drop maxOpenRuns ++ [run]).map RunReader.openRun)
            (lists.drop maxOpenRuns ++ [out]) := by
          rw [List.map_append, List.map_drop]
          exact List.rel_append (List.forall₂_drop maxOpenRuns reads) (.cons holds .nil)
        have kept : (lists.drop maxOpenRuns ++ [out]).flatten.Perm lists.flatten := by
          rw [List.flatten_append, List.flatten_singleton]
          refine List.perm_append_comm.trans ?_
          rw [← parts]
          exact perm.append_right _
        have fewer : (runs.drop maxOpenRuns ++ [run]).length < runs.length := by
          rw [List.length_append, List.length_drop, List.length_singleton]
          omega
        have total := kept.length_eq
        obtain ⟨runs', lists', collapsed, final, same⟩ := ih reads' (by omega)
        refine ⟨runs', lists', ?_, final, same.trans kept⟩
        rw [collapse, if_neg fit, merged]
        exact collapsed

/-- The sorter keeps what was pushed, in its runs and its buffer. -/
def Keeps (s : ExtSorter R) (pushed : List R) : Prop :=
  ∃ lists : List (List R), Reads (s.runs.map RunReader.openRun) lists ∧
    (lists.flatten ++ s.buffer).Perm pushed

theorem Keeps.spill {s : ExtSorter R} {pushed : List R} (keeps : s.Keeps pushed) :
    s.spill.Keeps pushed ∧ s.spill.buffer = [] := by
  obtain ⟨lists, reads, perm⟩ := keeps
  by_cases bare : s.buffer = []
  · rw [ExtSorter.spill, if_pos bare]
    exact ⟨⟨lists, reads, perm⟩, bare⟩
  · rw [ExtSorter.spill, if_neg bare]
    refine ⟨⟨lists ++ [sortUnstable s.buffer], ?_, ?_⟩, rfl⟩
    · rw [List.map_append]
      exact List.rel_append reads (.cons (RunReader.holds_openRun
        (sortUnstable_perm s.buffer).length_eq.symm (sortUnstable_ascending s.buffer)) .nil)
    · rw [List.flatten_append, List.flatten_singleton, List.append_nil]
      exact ((sortUnstable_perm s.buffer).append_left _).trans perm

theorem Keeps.push {s : ExtSorter R} {pushed : List R} (keeps : s.Keeps pushed) (record : R) :
    (s.push record).Keeps (pushed ++ [record]) := by
  obtain ⟨lists, reads, perm⟩ := keeps
  have added : ({ s with buffer := s.buffer ++ [record] } : ExtSorter R).Keeps
      (pushed ++ [record]) := by
    refine ⟨lists, reads, ?_⟩
    rw [← List.append_assoc]
    exact perm.append_right _
  rw [ExtSorter.push]
  split
  · exact added.spill.1
  · exact added

theorem maxOpenRuns_push (s : ExtSorter R) (record : R) :
    (s.push record).maxOpenRuns = s.maxOpenRuns := by
  rw [push, ExtSorter.spill]
  split
  · split <;> rfl
  · rfl

theorem keeps_pushed (budget maxOpenRuns : Nat) (records : List R) :
    (records.foldl push (new budget maxOpenRuns)).Keeps records ∧
      (records.foldl push (new budget maxOpenRuns)).maxOpenRuns = maxOpenRuns := by
  induction records using List.reverseRecOn with
  | nil => exact ⟨⟨[], .nil, List.Perm.refl _⟩, rfl⟩
  | append_singleton records record ih =>
      obtain ⟨keeps, fanIn⟩ := ih
      rw [List.foldl_append]
      exact ⟨keeps.push record, (maxOpenRuns_push _ record).trans fanIn⟩

/-- Finishing yields the pushed records in ascending order, each as often as it was pushed. -/
theorem finish_sorts (budget : Nat) {maxOpenRuns : Nat} (many : 2 ≤ maxOpenRuns)
    (records : List R) :
    ∃ out, out.Pairwise (· ≤ ·) ∧ out.Perm records ∧ ∃ enough, ∀ fuel, enough ≤ fuel →
      finish fuel (records.foldl push (new budget maxOpenRuns)) = .ok (some out) := by
  obtain ⟨keeps, fanIn⟩ := keeps_pushed budget maxOpenRuns records
  refine ⟨sortUnstable records, sortUnstable_ascending records, sortUnstable_perm records, ?_⟩
  generalize records.foldl push (new budget maxOpenRuns) = s at keeps fanIn ⊢
  subst fanIn
  by_cases memory : s.runs = []
  · obtain ⟨lists, reads, perm⟩ := keeps
    rw [memory, List.map_nil] at reads
    cases reads
    refine ⟨0, fun fuel _ => ?_⟩
    rw [finish, if_pos memory, eq_sortUnstable (sortUnstable_ascending s.buffer)
      ((sortUnstable_perm s.buffer).trans perm)]
  · obtain ⟨⟨lists, reads, perm⟩, bare⟩ := keeps.spill
    rw [bare, List.append_nil] at perm
    refine ⟨lists.flatten.length + s.spill.runs.length + 1, fun fuel enough => ?_⟩
    obtain ⟨runs, rests, collapsed, final, same⟩ := collapse_ok many reads
      (show lists.flatten.length + s.spill.runs.length < fuel by omega)
    obtain ⟨m, opened, out, drained, all, ascending⟩ := merged final
      (show rests.flatten.length < fuel by rw [same.length_eq]; omega)
    rw [finish, if_neg memory, collapsed]
    change (Merge.new runs >>= fun merge : Merge R => merge.drain fuel) = _
    rw [opened]
    change m.drain fuel = _
    rw [drained, eq_sortUnstable ascending ((all.trans same).trans perm)]

/-- Eight bytes of budget spill every word on its own; a fan-in of two then merges two groups. -/
theorem finish_sorts_words :
    ∃ out, out.Pairwise (· ≤ ·) ∧ out.Perm [(3 : Fin (2 ^ 64)), 1, 2, 1] ∧
      ∃ enough, ∀ fuel, enough ≤ fuel →
        finish fuel ([3, 1, 2, 1].foldl push (new 8 2)) = .ok (some out) :=
  finish_sorts 8 (by decide) [3, 1, 2, 1]

end ExtSorter

end Graphy
