import Graphy.Misc.Search

/-!
# Bit vectors with rank and select

A bit vector is a list of bits.  `rank1` counts the ones of a prefix, `select1`
finds the position of the `k`-th one, `nextOne` scans forward to the next one.
The last section is about run marks: the bit vector that marks the first
element of every run of equal keys in a list, and the list of those first
elements.  On a list sorted by the key, rank and select over the marks are the
two directions between a position and the run it lies in.
-/

namespace Graphy

namespace BitVector

/-- Ones in `[0, i)`. -/
def rank1 (bits : List Bool) (i : Nat) : Nat := (bits.take i).count true

/-- Zeros in `[0, i)`. -/
def rank0 (bits : List Bool) (i : Nat) : Nat := i - rank1 bits i

/-- Position of the `k`-th one (0-indexed). -/
@[grind =] def select1 : List Bool → Nat → Option Nat
  | [], _ => none
  | true :: _, 0 => some 0
  | true :: bits, k + 1 => (select1 bits k).map (· + 1)
  | false :: bits, k => (select1 bits k).map (· + 1)

/-- Position of the `k`-th zero (0-indexed). -/
def select0 (bits : List Bool) (k : Nat) : Option Nat := select1 (bits.map not) k

/-- Position of the first one at or after `start`. -/
def nextOne (bits : List Bool) (start : Nat) : Option Nat :=
  ((bits.drop start).findIdx? id).map (· + start)

@[simp] theorem rank1_nil (i : Nat) : rank1 [] i = 0 := by simp [rank1]

@[simp] theorem rank1_zero (bits : List Bool) : rank1 bits 0 = 0 := by simp [rank1]

@[simp] theorem rank1_cons_succ (b : Bool) (bits : List Bool) (i : Nat) :
    rank1 (b :: bits) (i + 1) = rank1 bits i + b.toNat := by
  cases b <;> simp [rank1]

theorem rank1_length (bits : List Bool) : rank1 bits bits.length = bits.count true := by
  simp [rank1]

theorem rank1_le (bits : List Bool) (i : Nat) : rank1 bits i ≤ i := by
  unfold rank1
  refine Nat.le_trans List.count_le_length ?_
  rw [List.length_take]
  exact Nat.min_le_left i bits.length

theorem rank1_mono {bits : List Bool} {i j : Nat} (h : i ≤ j) : rank1 bits i ≤ rank1 bits j := by
  unfold rank1
  exact List.Sublist.count_le _ (List.take_sublist_take_left h)

theorem rank1_le_count (bits : List Bool) (i : Nat) : rank1 bits i ≤ bits.count true :=
  List.Sublist.count_le _ (List.take_sublist i bits)

/-- A set first bit counts in every rank but the first. -/
theorem rank1_pos {bits : List Bool} {i : Nat} (first : bits.head? = some true) (h : 0 < i) :
    0 < rank1 bits i := by
  obtain ⟨rest, rfl⟩ := List.head?_eq_some_iff.mp first
  obtain ⟨i, rfl⟩ := Nat.exists_eq_succ_of_ne_zero (Nat.ne_of_gt h)
  rw [rank1_cons_succ, Bool.toNat_true]
  exact Nat.succ_pos _

theorem rank1_succ_of_get {bits : List Bool} {i : Nat} {b : Bool} (h : bits[i]? = some b) :
    rank1 bits (i + 1) = rank1 bits i + b.toNat := by
  unfold rank1
  rw [List.take_add_one, h, List.count_append]
  cases b <;> simp

/-- The `k`-th one sits at `i` exactly when bit `i` is set and `k` ones precede it. -/
theorem select1_eq_some_iff {bits : List Bool} {k i : Nat} :
    select1 bits k = some i ↔ bits[i]? = some true ∧ rank1 bits i = k := by
  induction bits generalizing k i with
  | nil => simp [select1]
  | cons b bits ih =>
      cases b with
      | false =>
          cases i with
          | zero => simp [select1]
          | succ i => simp [select1, ih]
      | true =>
          cases k with
          | zero => cases i with
            | zero => simp [select1]
            | succ i => simp [select1]
          | succ k => cases i with
            | zero => simp [select1]
            | succ i => simp [select1, ih]

theorem select1_eq_none_iff {bits : List Bool} {k : Nat} :
    select1 bits k = none ↔ bits.count true ≤ k := by
  induction bits generalizing k with
  | nil => simp [select1]
  | cons b bits ih =>
      cases b with
      | false => simp [select1, ih]
      | true => cases k with
        | zero => simp [select1]
        | succ k => simp [select1, ih]

theorem select1_isSome_of_lt {bits : List Bool} {k : Nat} (h : k < bits.count true) :
    ∃ i, select1 bits k = some i := by
  cases e : select1 bits k with
  | some i => exact ⟨i, rfl⟩
  | none => exact absurd (select1_eq_none_iff.mp e) (by omega)

theorem lt_count_of_select1 {bits : List Bool} {k i : Nat} (h : select1 bits k = some i) :
    k < bits.count true := by
  by_contra few
  rw [select1_eq_none_iff.mpr (Nat.le_of_not_lt few)] at h
  cases h

theorem select1_lt_length {bits : List Bool} {k i : Nat} (h : select1 bits k = some i) :
    i < bits.length := by
  have := (select1_eq_some_iff.mp h).1
  exact (List.getElem?_eq_some_iff.mp this).1

/-- Selecting further on, up to the length when there is no such one, goes forward. -/
theorem select1_getD_range {bits : List Bool} {j k i : Nat} (start : select1 bits j = some i)
    (le : j ≤ k) :
    i ≤ (select1 bits k).getD bits.length ∧ (select1 bits k).getD bits.length ≤ bits.length := by
  cases stop : select1 bits k with
  | none => exact ⟨(select1_lt_length start).le, le_refl _⟩
  | some m =>
      refine ⟨?_, (select1_lt_length stop).le⟩
      obtain ⟨set, rank⟩ := select1_eq_some_iff.mp stop
      by_contra before
      rw [Option.getD_some] at before
      have mono := @rank1_mono bits (m + 1) i (by omega)
      rw [rank1_succ_of_get set, rank, (select1_eq_some_iff.mp start).2, Bool.toNat_true] at mono
      omega

/-- Scanning forward from `start` finds the same one as selecting past the
ones before `start`. -/
theorem nextOne_eq_select1 (bits : List Bool) (start : Nat) :
    nextOne bits start = select1 bits (rank1 bits start) := by
  induction bits generalizing start with
  | nil => simp [nextOne, select1]
  | cons b bits ih =>
      cases start with
      | succ start =>
          have step : nextOne (b :: bits) (start + 1) = (nextOne bits start).map (· + 1) := by
            simp only [nextOne, List.drop_succ_cons, Option.map_map]
            rfl
          rw [step, ih, rank1_cons_succ]
          cases b <;> simp [select1]
      | zero =>
          have here := ih 0
          simp only [nextOne, List.drop_zero, rank1_zero] at here ⊢
          cases b with
          | true => simp [select1, List.findIdx?_cons]
          | false =>
              simp only [select1, ← here, List.findIdx?_cons]
              simp [Function.comp_def]

theorem nextOne_of_set {bits : List Bool} {start : Nat} (h : bits[start]? = some true) :
    nextOne bits start = some start := by
  obtain ⟨bound, eq⟩ := List.getElem?_eq_some_iff.mp h
  rw [nextOne, List.drop_eq_getElem_cons bound, eq]
  simp [List.findIdx?_cons]

theorem nextOne_of_clear {bits : List Bool} {start : Nat} (h : bits[start]? = some false) :
    nextOne bits start = nextOne bits (start + 1) := by
  rw [nextOne_eq_select1, nextOne_eq_select1, rank1_succ_of_get h]
  rfl

theorem le_nextOne {bits : List Bool} {start : Nat} (h : start ≤ bits.length) :
    start ≤ (nextOne bits start).getD bits.length := by
  cases found : nextOne bits start with
  | none => exact h
  | some k =>
      obtain ⟨n, -, rfl⟩ := Option.map_eq_some_iff.mp found
      rw [Option.getD_some]
      omega

/-- The scan stops at a one or at the length, with no one in between. -/
theorem nextOne_stop {bits : List Bool} {start stop : Nat} (h : start ≤ bits.length)
    (found : (nextOne bits start).getD bits.length = stop) :
    start ≤ stop ∧ stop ≤ bits.length ∧ rank1 bits stop = rank1 bits start ∧
      (stop < bits.length → bits[stop]? = some true) := by
  subst found
  refine ⟨le_nextOne h, ?_⟩
  rw [nextOne_eq_select1]
  cases sel : select1 bits (rank1 bits start) with
  | none =>
      rw [Option.getD_none, rank1_length]
      refine ⟨le_refl _, ?_, fun lt => absurd lt (lt_irrefl _)⟩
      exact le_antisymm (select1_eq_none_iff.mp sel) (rank1_le_count bits start)
  | some k =>
      rw [Option.getD_some]
      obtain ⟨set, rank⟩ := select1_eq_some_iff.mp sel
      exact ⟨(select1_lt_length sel).le, rank, fun _ => set⟩

/-- The next one from a position: it is there, or the scan goes on past it. -/
theorem nextOne_cases {bits : List Bool} {start : Nat} (h : start < bits.length) :
    ((nextOne bits start).getD bits.length = start ∧
      rank1 bits (start + 1) = rank1 bits start + 1) ∨
    ((nextOne bits start).getD bits.length = (nextOne bits (start + 1)).getD bits.length ∧
      rank1 bits (start + 1) = rank1 bits start ∧ start < (nextOne bits start).getD bits.length) := by
  have get := List.getElem?_eq_getElem h
  cases bit : bits[start] with
  | true =>
      rw [bit] at get
      refine Or.inl ⟨?_, rank1_succ_of_get get⟩
      rw [nextOne_of_set get, Option.getD_some]
  | false =>
      rw [bit] at get
      rw [nextOne_of_clear get]
      exact Or.inr ⟨rfl, rank1_succ_of_get get, le_nextOne h⟩

theorem rank0_map_not {bits : List Bool} {i : Nat} (h : i ≤ bits.length) :
    rank1 (bits.map not) i = rank0 bits i := by
  induction bits generalizing i with
  | nil => simp_all [rank0]
  | cons b bits ih =>
      cases i with
      | zero => simp [rank0]
      | succ i =>
          have bound : i ≤ bits.length := by simpa using h
          have le := rank1_le bits i
          simp only [List.map_cons, rank1_cons_succ, ih bound, rank0]
          cases b
          · simp; omega
          · simp

theorem select0_eq_some_iff {bits : List Bool} {k i : Nat} :
    select0 bits k = some i ↔ bits[i]? = some false ∧ rank0 bits i = k := by
  unfold select0
  rw [select1_eq_some_iff, List.getElem?_map]
  constructor
  · rintro ⟨bit, rank⟩
    have get : bits[i]? = some false := by
      cases e : bits[i]? with
      | none => simp [e] at bit
      | some b => cases b <;> simp_all
    have bound := (List.getElem?_eq_some_iff.mp get).1
    exact ⟨get, by rw [← rank0_map_not (by omega)]; exact rank⟩
  · rintro ⟨bit, rank⟩
    have bound := (List.getElem?_eq_some_iff.mp bit).1
    exact ⟨by simp [bit], by rw [rank0_map_not (by omega)]; exact rank⟩

end BitVector

/-! ## Run marks -/

section Runs

open BitVector

variable {α κ : Type} [LinearOrder κ]

/-- Marks the elements whose key differs from the key of the element before
them; `last` is the key before the list starts. -/
def runMarks (key : α → κ) : Option κ → List α → List Bool
  | _, [] => []
  | last, a :: l => decide (last ≠ some (key a)) :: runMarks key (some (key a)) l

/-- The marked elements: the first of every run of equal keys. -/
def runHeads (key : α → κ) : Option κ → List α → List α
  | _, [] => []
  | last, a :: l =>
      if last = some (key a) then runHeads key (some (key a)) l
      else a :: runHeads key (some (key a)) l

variable {key : α → κ}

@[simp] theorem length_runMarks (last : Option κ) (l : List α) :
    (runMarks key last l).length = l.length := by
  induction l generalizing last with
  | nil => rfl
  | cons a l ih => simp [runMarks, ih]

/-- A run that goes on has no mark. -/
theorem runMarks_same {c : κ} {l : List α} (same : ∀ a ∈ l, key a = c) (l' : List α) :
    runMarks key (some c) (l ++ l') = List.replicate l.length false ++ runMarks key (some c) l' := by
  induction l with
  | nil => rfl
  | cons a l ih =>
      have first := same a List.mem_cons_self
      rw [List.cons_append, runMarks, first, ih fun b hb => same b (List.mem_cons_of_mem a hb),
        List.length_cons, List.replicate_succ, List.cons_append]
      simp

/-- Runs of one element each are all marked. -/
theorem runMarks_apart {last : Option κ} {l : List α} (fresh : ∀ a ∈ l, last ≠ some (key a))
    (apart : l.Pairwise fun a b => key a ≠ key b) :
    runMarks key last l = List.replicate l.length true := by
  induction l generalizing last with
  | nil => rfl
  | cons a l ih =>
      obtain ⟨first, rest⟩ := List.pairwise_cons.mp apart
      rw [runMarks, decide_eq_true (fresh a List.mem_cons_self), List.length_cons,
        List.replicate_succ, ih (fun b hb same => first b hb (Option.some.inj same)) rest]

theorem count_runMarks (last : Option κ) (l : List α) :
    (runMarks key last l).count true = (runHeads key last l).length := by
  induction l generalizing last with
  | nil => rfl
  | cons a l ih =>
      by_cases same : last = some (key a)
      · simp [runMarks, runHeads, same, ih]
      · simp [runMarks, runHeads, same, ih]

theorem runHeads_sublist (last : Option κ) (l : List α) : (runHeads key last l).Sublist l := by
  induction l generalizing last with
  | nil => simp [runHeads]
  | cons a l ih =>
      simp only [runHeads]
      split
      · exact (ih _).cons a
      · exact (ih _).cons_cons a

/-- A list sorted by the key whose keys are all at least `last`. -/
def SortedFrom (key : α → κ) (last : Option κ) (l : List α) : Prop :=
  l.Pairwise (fun a b => key a ≤ key b) ∧ ∀ c, last = some c → ∀ a ∈ l, c ≤ key a

theorem sortedFrom_none {l : List α} (h : l.Pairwise (fun a b => key a ≤ key b)) :
    SortedFrom key none l := ⟨h, by simp⟩

theorem SortedFrom.tail {last : Option κ} {a : α} {l : List α}
    (h : SortedFrom key last (a :: l)) : SortedFrom key (some (key a)) l := by
  obtain ⟨sorted, -⟩ := h
  refine ⟨(List.pairwise_cons.mp sorted).2, ?_⟩
  rintro c same b hb
  cases same
  exact (List.pairwise_cons.mp sorted).1 b hb

/-- Past a run with key `c`, every later head has a key above `c`. -/
theorem lt_key_of_mem_runHeads {last : Option κ} {l : List α} (h : SortedFrom key last l)
    {c : κ} (hc : last = some c) {b : α} (hb : b ∈ runHeads key last l) : c < key b := by
  induction l generalizing last c with
  | nil => simp [runHeads] at hb
  | cons a l ih =>
      have ge := h.2 c hc a (by simp)
      simp only [runHeads] at hb
      by_cases same : last = some (key a)
      · rw [if_pos same] at hb
        have eq : c = key a := by simpa [hc] using same
        exact eq ▸ ih h.tail rfl hb
      · rw [if_neg same] at hb
        have ne : c ≠ key a := by intro e; exact same (by rw [hc, e])
        have lt : c < key a := lt_of_le_of_ne ge ne
        rcases List.mem_cons.mp hb with rfl | later
        · exact lt
        · exact lt.trans (ih h.tail rfl later)

/-- The heads of a sorted list are strictly increasing in the key. -/
theorem runHeads_pairwise {last : Option κ} {l : List α} (h : SortedFrom key last l) :
    (runHeads key last l).Pairwise (fun a b => key a < key b) := by
  induction l generalizing last with
  | nil => simp [runHeads]
  | cons a l ih =>
      simp only [runHeads]
      split
      · exact ih h.tail
      · exact List.pairwise_cons.mpr
          ⟨fun b hb => lt_key_of_mem_runHeads h.tail rfl hb, ih h.tail⟩

variable (key) in
/-- Every key of the list is the key of a head, unless it continues the run before the list. -/
theorem exists_runHead (last : Option κ) {l : List α} {a : α} (ha : a ∈ l) :
    last = some (key a) ∨ ∃ b ∈ runHeads key last l, key b = key a := by
  induction l generalizing last with
  | nil => simp at ha
  | cons c l ih =>
      simp only [runHeads]
      by_cases same : last = some (key c)
      · rw [if_pos same]
        rcases List.mem_cons.mp ha with rfl | later
        · exact Or.inl same
        · rcases ih (some (key c)) later with e | found
          · exact Or.inl (same.trans e)
          · exact Or.inr found
      · rw [if_neg same]
        rcases List.mem_cons.mp ha with rfl | later
        · exact Or.inr ⟨a, by simp, rfl⟩
        · rcases ih (some (key c)) later with e | ⟨b, hb, eq⟩
          · exact Or.inr ⟨c, by simp, by simpa using e⟩
          · exact Or.inr ⟨b, by simp [hb], eq⟩

variable (key) in
/-- Ranking a position among the marks gives the run the position lies in. -/
theorem runHeads_rank1 (last : Option κ) (l : List α) (i : Nat) (a : α) (h : l[i]? = some a) :
    (rank1 (runMarks key last l) (i + 1) = 0 ∧ last = some (key a)) ∨
      ∃ b, (runHeads key last l)[rank1 (runMarks key last l) (i + 1) - 1]? = some b ∧
        key b = key a ∧ 0 < rank1 (runMarks key last l) (i + 1) := by
  induction l generalizing last i with
  | nil => simp at h
  | cons c l ih =>
      cases i with
      | zero =>
          have eq : c = a := by simpa using h
          subst eq
          by_cases same : last = some (key c)
          · simp [runMarks, same]
          · simp [runMarks, runHeads, same]
      | succ i =>
          have later : l[i]? = some a := by simpa using h
          rcases ih (some (key c)) i later with ⟨zero, eq⟩ | ⟨b, get, eq, pos⟩
          · have keys : key c = key a := by simpa using eq
            by_cases same : last = some (key c)
            · exact Or.inl ⟨by simp [runMarks, same, zero], same.trans eq⟩
            · exact Or.inr ⟨c, by simp [runMarks, runHeads, same, zero], keys,
                by simp [runMarks, same]⟩
          · by_cases same : last = some (key c)
            · exact Or.inr ⟨b, by simp [runMarks, runHeads, same, get, eq, pos]⟩
            · refine Or.inr ⟨b, ?_, eq, by simp [runMarks, same]⟩
              obtain ⟨r, hr⟩ : ∃ r, rank1 (runMarks key (some (key c)) l) (i + 1) = r + 1 :=
                ⟨_, (Nat.succ_pred_eq_of_pos pos).symm⟩
              simp only [runMarks, runHeads, if_neg same, rank1_cons_succ, hr]
              simpa [hr, same] using get

variable (key) in
/-- Selecting past the heads a downward-closed condition admits stops after the
elements it admits.  With the condition "below the key of a head" this is where
the head's run starts, with "at most the key" where it ends. -/
theorem select1_runMarks {q : κ → Bool} (down : ∀ a b, a ≤ b → q b = true → q a = true)
    {last : Option κ} {l : List α} (h : SortedFrom key last l)
    (hlast : ∀ c, last = some c → q c = true) :
    (select1 (runMarks key last l)
      ((runHeads key last l).countP (fun a => q (key a)))).getD l.length =
        l.countP (fun a => q (key a)) := by
  induction l generalizing last with
  | nil => simp [runMarks, runHeads, select1]
  | cons a l ih =>
      have shift (o : Option Nat) (n : Nat) : (o.map (· + 1)).getD (n + 1) = o.getD n + 1 := by
        cases o <;> rfl
      by_cases same : last = some (key a)
      · have qa := hlast _ same
        have step := ih h.tail (fun c hc => by cases hc; exact qa)
        simp [runMarks, runHeads, same, select1, shift, step, qa]
      · by_cases qa : q (key a) = true
        · have step := ih h.tail (fun c hc => by cases hc; exact qa)
          simp [runMarks, runHeads, same, select1, shift, step, qa]
        · have refuse : ∀ b ∈ l, ¬ q (key b) = true := fun b hb hq =>
            qa (down _ _ (h.tail.2 _ rfl b hb) hq)
          have none : l.countP (fun b => q (key b)) = 0 := List.countP_eq_zero.mpr refuse
          have noHead : (runHeads key (some (key a)) l).countP (fun b => q (key b)) = 0 :=
            List.countP_eq_zero.mpr fun b hb => refuse b ((runHeads_sublist _ _).subset hb)
          simp [runMarks, runHeads, same, select1, qa, none, noHead]

/-- The run of the `k`-th head: it starts after the elements with a smaller key and
ends after those with the same key. -/
theorem run_range {l : List α} (sorted : l.Pairwise (fun a b => key a ≤ key b)) {k : Nat} {b : α}
    (hb : (runHeads key none l)[k]? = some b) :
    select1 (runMarks key none l) k = some (l.countP (fun a => decide (key a < key b))) ∧
      (select1 (runMarks key none l) (k + 1)).getD l.length =
        l.countP (fun a => decide (key a ≤ key b)) := by
  have from_ := sortedFrom_none sorted
  have strict := runHeads_pairwise from_
  have start := select1_runMarks key (q := fun c => decide (c < key b))
    (fun a c le hc => by simpa using lt_of_le_of_lt le (by simpa using hc)) from_ (by simp)
  have stop := select1_runMarks key (q := fun c => decide (c ≤ key b))
    (fun a c le hc => by simpa using le_trans le (by simpa using hc)) from_ (by simp)
  rw [countP_lt_of_strict strict hb] at start
  rw [countP_le_of_strict strict hb] at stop
  refine ⟨?_, stop⟩
  obtain ⟨i, hi⟩ : ∃ i, select1 (runMarks key none l) k = some i := by
    apply select1_isSome_of_lt
    rw [count_runMarks]
    exact (List.getElem?_eq_some_iff.mp hb).1
  rw [hi] at start ⊢
  exact congrArg some start

/-- The key before the element that follows the list. -/
def lastKey (key : α → κ) (last : Option κ) (l : List α) : Option κ :=
  match l.getLast? with
  | some b => some (key b)
  | none => last

omit [LinearOrder κ] in
@[simp] theorem lastKey_nil (last : Option κ) : lastKey key last [] = last := rfl

omit [LinearOrder κ] in
@[simp] theorem lastKey_cons (last : Option κ) (a : α) (l : List α) :
    lastKey key last (a :: l) = lastKey key (some (key a)) l := by
  cases l with
  | nil => rfl
  | cons b l =>
      obtain ⟨c, hc⟩ : ∃ c, (b :: l).getLast? = some c := ⟨_, List.getLast?_eq_some_getLast (by simp)⟩
      simp [lastKey, List.getLast?_cons_cons, hc]

/-- An element that continues the last run adds a clear mark and no head. -/
theorem run_concat_same {last : Option κ} {l : List α} {a : α}
    (same : lastKey key last l = some (key a)) :
    runMarks key last (l ++ [a]) = runMarks key last l ++ [false] ∧
      runHeads key last (l ++ [a]) = runHeads key last l := by
  induction l generalizing last with
  | nil =>
      have eq : last = some (key a) := same
      simp [runMarks, runHeads, eq]
  | cons b l ih =>
      rw [lastKey_cons] at same
      obtain ⟨marks, heads⟩ := ih same
      simp [runMarks, runHeads, marks, heads]

/-- An element with another key starts a run. -/
theorem run_concat_new {last : Option κ} {l : List α} {a : α}
    (fresh : lastKey key last l ≠ some (key a)) :
    runMarks key last (l ++ [a]) = runMarks key last l ++ [true] ∧
      runHeads key last (l ++ [a]) = runHeads key last l ++ [a] := by
  induction l generalizing last with
  | nil =>
      have ne : last ≠ some (key a) := fresh
      simp [runMarks, runHeads, ne]
  | cons b l ih =>
      rw [lastKey_cons] at fresh
      obtain ⟨marks, heads⟩ := ih fresh
      refine ⟨by simp [runMarks, marks], ?_⟩
      simp only [List.cons_append, runHeads, heads]
      split
      · rfl
      · rfl

variable (key) in
/-- The last head has the key of the last element. -/
theorem lastKey_runHeads (last : Option κ) (l : List α) :
    lastKey key last (runHeads key last l) = lastKey key last l := by
  induction l generalizing last with
  | nil => rfl
  | cons a l ih =>
      simp only [runHeads, lastKey_cons]
      by_cases same : last = some (key a)
      · rw [if_pos same, ← ih (some (key a)), same]
      · rw [if_neg same, lastKey_cons, ih]

end Runs

end Graphy
