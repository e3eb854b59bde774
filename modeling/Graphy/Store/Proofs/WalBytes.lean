import Graphy.Misc.Chunks
import Graphy.Store.WalBytes
import Mathlib.Data.UInt

/-!
# Recovery from any cut of the log

A cut log reads like its whole frames, these like the append calls that lie within
the cut and the opening of one more.  All of it rests on the length of a frame
fitting in its four bytes.
-/

namespace Graphy.WalBytes

variable (hash : Bytes → UInt64)

/-! ## Frames -/

@[simp] theorem length_frame (payload : Bytes) :
    (frame hash payload).length = 12 + payload.length := by
  unfold frame
  simp only [List.length_append, length_leBytes]
  omega

/-- What `readFrame` makes of a frame: it takes the payload up to the length that the four
bytes hold. -/
theorem readFrame_frame_append (payload rest : Bytes) :
    readFrame hash (frame hash payload ++ rest) =
      if hash (payload.take (payload.length % 2 ^ 32)) ≠ hash payload ∨
          payload.take (payload.length % 2 ^ 32) = [] then none
      else some (payload.take (payload.length % 2 ^ 32),
        (payload ++ rest).drop (payload.length % 2 ^ 32)) := by
  have lenBytes : (frame hash payload ++ rest).take 4 = leBytes 4 payload.length := by
    rw [frame, List.append_assoc]
    exact List.take_left' (length_leBytes 4 _)
  have afterLen : (frame hash payload ++ rest).drop 4 =
      leBytes 8 (hash payload).toNat ++ (payload ++ rest) := by
    rw [frame, List.append_assoc, List.append_assoc]
    exact List.drop_left' (length_leBytes 4 _)
  have body : (frame hash payload ++ rest).drop 12 = payload ++ rest := by
    rw [show 12 = 8 + 4 from rfl, Nat.add_comm, ← List.drop_drop, afterLen]
    exact List.drop_left' (length_leBytes 8 _)
  have digest : ((frame hash payload ++ rest).drop 4).take 8 = leBytes 8 (hash payload).toNat := by
    rw [afterLen]
    exact List.take_left' (length_leBytes 8 _)
  have len : leNat ((frame hash payload ++ rest).take 4) = payload.length % 2 ^ 32 := by
    rw [lenBytes, leNat_leBytes, show 256 ^ 4 = 2 ^ 32 from rfl]
  have digestVal : leNat (((frame hash payload ++ rest).drop 4).take 8) = (hash payload).toNat := by
    rw [digest, leNat_leBytes_of_lt]
    exact (hash payload).toNat_lt
  have le : payload.length % 2 ^ 32 ≤ payload.length := Nat.mod_le _ _
  have taken : (payload ++ rest).take (payload.length % 2 ^ 32) =
      payload.take (payload.length % 2 ^ 32) := List.take_append_of_le_length le
  unfold readFrame
  rw [if_neg (by simp only [List.length_append, length_frame]; omega)]
  simp only [len, digestVal, body, taken]
  rw [if_neg (by rw [List.length_append]; omega)]
  simp only [ne_eq, UInt64.toNat_inj]

/-- A payload that a frame carries whole. -/
structure Framed (payload : Bytes) : Prop where
  ne_nil : payload ≠ []
  lt : payload.length < 2 ^ 32

theorem readFrame_frame {payload : Bytes} (h : Framed payload) (rest : Bytes) :
    readFrame hash (frame hash payload ++ rest) = some (payload, rest) := by
  have whole : payload.length % 2 ^ 32 = payload.length := Nat.mod_eq_of_lt h.lt
  rw [readFrame_frame_append, whole, List.take_length, List.drop_left]
  rw [if_neg]
  simp [h.ne_nil]

/-- A frame cut short is not read. -/
theorem readFrame_cut {payload : Bytes} (h : Framed payload) {k : Nat}
    (short : k < 12 + payload.length) : readFrame hash ((frame hash payload).take k) = none := by
  unfold readFrame
  by_cases header : k < 12
  · rw [if_pos]
    rw [List.length_take]
    omega
  · rw [if_neg (by rw [List.length_take, length_frame]; omega)]
    have lenBytes : ((frame hash payload).take k).take 4 = leBytes 4 payload.length := by
      rw [List.take_take, Nat.min_eq_left (by omega), frame]
      exact List.take_left' (length_leBytes 4 _)
    have len : leNat (((frame hash payload).take k).take 4) = payload.length := by
      rw [lenBytes, leNat_leBytes_of_lt h.lt]
    simp only [len]
    rw [if_pos]
    simp only [List.length_drop, List.length_take, length_frame]
    omega

/-! ## Streams of frames -/

def frames (payloads : List Bytes) : Bytes := payloads.flatMap (frame hash)

theorem frames_append (ps qs : List Bytes) :
    frames hash (ps ++ qs) = frames hash ps ++ frames hash qs := by
  unfold frames
  rw [List.flatMap_append]

/-- Bytes of a payload's frame. -/
def frameSize (payload : Bytes) : Nat := 12 + payload.length

theorem length_frames (payloads : List Bytes) :
    (frames hash payloads).length = totalSize frameSize payloads := by
  induction payloads with
  | nil => rfl
  | cons p ps ih =>
      have total : totalSize frameSize (p :: ps) = frameSize p + totalSize frameSize ps := rfl
      rw [total, ← ih]
      simp [frames, frameSize]

/-- What replay does on reading one whole frame. -/
theorem replayFrom_frame (ctx : String) (r : ReplayState) {payload : Bytes} (h : Framed payload)
    (rest : Bytes) : replayFrom hash ctx r (frame hash payload ++ rest) =
      match r.step ctx (r.pos + 12 + payload.length) payload with
      | .error e => .error e
      | .ok none => .ok r
      | .ok (some r') => replayFrom hash ctx r' rest := by
  rw [replayFrom]
  split
  · rename_i none_
    rw [readFrame_frame hash h] at none_
    cases none_
  · rename_i payload' rest' read
    rw [readFrame_frame hash h] at read
    cases read
    rfl

theorem replayFrom_of_none (ctx : String) (r : ReplayState) {bytes : Bytes}
    (h : readFrame hash bytes = none) : replayFrom hash ctx r bytes = .ok r := by
  rw [replayFrom]
  split
  · rfl
  · rename_i read
    rw [h] at read
    cases read

theorem replayFrom_nil (ctx : String) (r : ReplayState) : replayFrom hash ctx r [] = .ok r :=
  replayFrom_of_none hash ctx r rfl

/-- A cut stream reads like its whole frames. -/
theorem replayFrom_take (ctx : String) (r : ReplayState) {payloads : List Bytes}
    (framed : ∀ p ∈ payloads, Framed p) (cut : Nat) :
    replayFrom hash ctx r ((frames hash payloads).take cut) =
      replayFrom hash ctx r (frames hash (wholeWithin frameSize cut payloads)) := by
  induction payloads generalizing r cut with
  | nil => simp [frames, wholeWithin]
  | cons p ps ih =>
      have hp : Framed p := framed p (by simp)
      have hps : ∀ q ∈ ps, Framed q := fun q mem => framed q (by simp [mem])
      have opened : frames hash (p :: ps) = frame hash p ++ frames hash ps := rfl
      by_cases fits : frameSize p ≤ cut
      · have kept : (frames hash (p :: ps)).take cut =
            frame hash p ++ (frames hash ps).take (cut - frameSize p) := by
          rw [opened, List.take_append, length_frame]
          rw [List.take_of_length_le (by simpa [frameSize] using fits)]
          rfl
        have whole : frames hash (wholeWithin frameSize cut (p :: ps)) =
            frame hash p ++ frames hash (wholeWithin frameSize (cut - frameSize p) ps) := by
          rw [wholeWithin, if_pos fits]
          rfl
        rw [kept, whole, replayFrom_frame hash ctx r hp, replayFrom_frame hash ctx r hp]
        cases r.step ctx (r.pos + 12 + p.length) p with
        | error e => rfl
        | ok next =>
            cases next with
            | none => rfl
            | some r' => exact ih r' hps (cut - frameSize p)
      · have none_ : wholeWithin frameSize cut (p :: ps) = [] := by rw [wholeWithin, if_neg fits]
        have short : cut < 12 + p.length := by
          unfold frameSize at fits
          omega
        have cutFrame : (frames hash (p :: ps)).take cut = (frame hash p).take cut := by
          rw [opened, List.take_append_of_le_length (by rw [length_frame]; omega)]
        rw [none_, cutFrame, replayFrom_of_none hash ctx r (readFrame_cut hash hp short)]
        exact (replayFrom_nil hash ctx r).symm

/-! ## Fields -/

theorem length_putBytes (b : Bytes) : (putBytes b).length = 4 + b.length := by
  unfold putBytes
  rw [List.length_append, length_leBytes]

/-- A field read from a cut: nothing when the cut lies within it. -/
theorem takeField_take {b : Bytes} (h : b.length < 2 ^ 32) (rest : Bytes) (k : Nat) :
    takeField ((putBytes b ++ rest).take k) =
      if k < 4 + b.length then none else some (b, rest.take (k - (4 + b.length))) := by
  have total : (putBytes b ++ rest).length = 4 + b.length + rest.length := by
    rw [List.length_append, length_putBytes]
  unfold takeField
  by_cases header : k < 4
  · rw [if_pos (by rw [List.length_take]; omega), if_pos (by omega)]
  · have lenBytes : ((putBytes b ++ rest).take k).take 4 = leBytes 4 b.length := by
      rw [List.take_take, Nat.min_eq_left (by omega), putBytes, List.append_assoc]
      exact List.take_left' (length_leBytes 4 _)
    have len : leNat (((putBytes b ++ rest).take k).take 4) = b.length := by
      rw [lenBytes, leNat_leBytes_of_lt h]
    have body : ((putBytes b ++ rest).take k).drop 4 = (b ++ rest).take (k - 4) := by
      rw [List.drop_take, putBytes, List.append_assoc, List.drop_left' (length_leBytes 4 _)]
    rw [if_neg (by rw [List.length_take]; omega)]
    simp only [len, body]
    by_cases short : k < 4 + b.length
    · rw [if_pos short, if_pos]
      rw [List.length_take]
      omega
    · rw [if_neg short, if_neg (by rw [List.length_take, List.length_append]; omega)]
      rw [List.take_take, Nat.min_eq_left (by omega), List.take_left, List.drop_take,
        List.drop_left, Nat.sub_sub]

theorem takeField_putBytes {b : Bytes} (h : b.length < 2 ^ 32) (rest : Bytes) :
    takeField (putBytes b ++ rest) = some (b, rest) := by
  have whole := takeField_take h rest (4 + b.length + rest.length)
  rw [if_neg (by omega), List.take_of_length_le, List.take_of_length_le (by omega)] at whole
  · exact whole
  · rw [List.length_append, length_putBytes]

theorem takeGraph_putGraph {g : Option Bytes} (h : ∀ t ∈ g, t.length < 2 ^ 32) :
    takeGraph (putGraph g) = some (g, []) := by
  cases g with
  | none => rfl
  | some t =>
      have field := takeField_putBytes (h t rfl) []
      rw [List.append_nil] at field
      unfold takeGraph putGraph takeFlag
      simp [field]

theorem takeGraph_cut {g : Option Bytes} (h : ∀ t ∈ g, t.length < 2 ^ 32) {k : Nat}
    (short : k < (putGraph g).length) : takeGraph ((putGraph g).take k) = none := by
  cases k with
  | zero => rfl
  | succ k =>
      cases g with
      | none => simp [putGraph] at short
      | some t =>
          have field := takeField_take (h t rfl) [] k
          rw [List.append_nil, if_pos] at field
          · unfold takeGraph putGraph takeFlag
            simp [field]
          · simp only [putGraph, List.length_cons, length_putBytes] at short
            omega

/-- The fields of a quad record after the tag. -/
def opFields (op : WalOp) : Bytes :=
  (if op.del then 1 else 0) ::
    (putBytes op.s ++ (putBytes op.p ++ (putBytes op.o ++ putGraph op.g)))

theorem takeFlag_flag (b : Bool) (p : Bytes) :
    takeFlag ((if b then 1 else 0) :: p) = some (b, p) := by
  cases b <;> rfl

/-- Terms that a length field can hold. -/
structure WalOp.ShortTerms (op : WalOp) : Prop where
  s : op.s.length < 2 ^ 32
  p : op.p.length < 2 ^ 32
  o : op.o.length < 2 ^ 32
  g : ∀ t ∈ op.g, t.length < 2 ^ 32

theorem WalOp.shortTerms_of_terms {op : WalOp} (h : ∀ t ∈ op.terms, t.length < 2 ^ 32) :
    op.ShortTerms where
  s := h op.s (by simp [WalOp.terms])
  p := h op.p (by simp [WalOp.terms])
  o := h op.o (by simp [WalOp.terms])
  g := fun t mem => h t (by
    have : op.g = some t := mem
    simp [WalOp.terms, this])

theorem parseOp_opFields {op : WalOp} (h : op.ShortTerms) : parseOp (opFields op) = some op := by
  unfold parseOp opFields
  simp only [takeFlag_flag, takeField_putBytes h.s, takeField_putBytes h.p,
    takeField_putBytes h.o, takeGraph_putGraph h.g, Option.bind_eq_bind, Option.bind_some]
  rfl

/-- The fields of a quad record cut short are no operation. -/
theorem parseOp_cut {op : WalOp} (h : op.ShortTerms) {k : Nat} (short : k < (opFields op).length) :
    parseOp ((opFields op).take k) = none := by
  simp only [opFields, List.length_cons, List.length_append, length_putBytes] at short
  cases k with
  | zero => rfl
  | succ k =>
      unfold parseOp opFields
      rw [List.take_succ_cons]
      simp only [takeFlag_flag, Option.bind_eq_bind, Option.bind_some, takeField_take h.s]
      by_cases inS : k < 4 + op.s.length
      · rw [if_pos inS]
        rfl
      rw [if_neg inS, Option.bind_some, takeField_take h.p]
      by_cases inP : k - (4 + op.s.length) < 4 + op.p.length
      · rw [if_pos inP]
        rfl
      rw [if_neg inP, Option.bind_some, takeField_take h.o]
      by_cases inO : k - (4 + op.s.length) - (4 + op.p.length) < 4 + op.o.length
      · rw [if_pos inO]
        rfl
      rw [if_neg inO, Option.bind_some, takeGraph_cut h.g (by omega)]
      rfl

/-! ## Items -/

/-- What a log is made of: calls, and the two records that open a rotated log. -/
inductive Item where
  | call (a : Append)
  | mergeCommit (generation : Nat)
  | checkpoint (freezeEpoch : Nat)

namespace Item

def payloads : Item → List Bytes
  | .call a => a.payloads
  | .mergeCommit generation => [wordPayload tagMergeCommit generation]
  | .checkpoint freezeEpoch => [wordPayload tagCheckpoint freezeEpoch]

/-- Bytes of the item in the log. -/
def size (i : Item) : Nat := totalSize frameSize i.payloads

/-- Items that replay reads back as they were written. -/
def Good : Item → Prop
  | .call (.tx epoch ops) => epoch < 2 ^ 64 ∧ ∀ op ∈ ops, op.ShortTerms ∧ Framed (opPayload op)
  | .call (.mergeStart _) => True
  | .mergeCommit _ => True
  | .checkpoint freezeEpoch => freezeEpoch < 2 ^ 64

end Item

theorem length_wordPayload (tag : UInt8) (v : Nat) : (wordPayload tag v).length = 9 := by
  unfold wordPayload
  rw [List.length_cons, length_leBytes]

theorem framed_wordPayload (tag : UInt8) (v : Nat) : Framed (wordPayload tag v) where
  ne_nil := by simp [wordPayload]
  lt := by
    rw [length_wordPayload]
    omega

theorem framed_begin : Framed [tagBegin] := ⟨by simp, by simp⟩

theorem Item.Good.framed {i : Item} (h : i.Good) : ∀ p ∈ i.payloads, Framed p := by
  intro p mem
  cases i with
  | call a =>
      cases a with
      | tx epoch ops =>
          simp only [Item.payloads, Append.payloads, List.mem_cons, List.mem_append,
            List.mem_map, List.not_mem_nil, or_false] at mem
          rcases mem with rfl | ⟨op, opMem, rfl⟩ | rfl
          · exact framed_begin
          · exact (h.2 op opMem).2
          · exact framed_wordPayload _ _
      | mergeStart freezeEpoch =>
          rw [List.mem_singleton.mp mem]
          exact framed_wordPayload _ _
  | mergeCommit generation =>
      rw [List.mem_singleton.mp mem]
      exact framed_wordPayload _ _
  | checkpoint freezeEpoch =>
      rw [List.mem_singleton.mp mem]
      exact framed_wordPayload _ _

namespace ReplayState

/-- Replay after a whole item. -/
def after (r : ReplayState) : Item → ReplayState
  | .call a => { r with
      pending := none
      committed := r.committed ++ a.tx?.toList
      valid := r.pos + (Item.call a).size
      pos := r.pos + (Item.call a).size }
  | .mergeCommit generation => { r with
      pending := none
      valid := r.pos + (Item.mergeCommit generation).size
      pos := r.pos + (Item.mergeCommit generation).size }
  | .checkpoint freezeEpoch => { r with
      pending := none
      committed := r.committed.filter fun c => decide (freezeEpoch < c.1)
      checkpointEpoch := max r.checkpointEpoch freezeEpoch
      valid := r.pos + (Item.checkpoint freezeEpoch).size
      pos := r.pos + (Item.checkpoint freezeEpoch).size }

@[simp] theorem after_pending (r : ReplayState) (i : Item) : (r.after i).pending = none := by
  cases i <;> rfl

@[simp] theorem after_pos (r : ReplayState) (i : Item) : (r.after i).pos = r.pos + i.size := by
  cases i <;> rfl

@[simp] theorem after_valid (r : ReplayState) (i : Item) : (r.after i).valid = r.pos + i.size := by
  cases i <;> rfl

theorem foldl_after_pending {r : ReplayState} (h : r.pending = none) (items : List Item) :
    (items.foldl after r).pending = none := by
  induction items generalizing r with
  | nil => exact h
  | cons i items ih => exact ih (after_pending r i)

/-- The valid length is the position after the last whole item. -/
theorem foldl_after_valid {r : ReplayState} (h : r.valid = r.pos) (items : List Item) :
    (items.foldl after r).valid = r.pos + totalSize Item.size items := by
  induction items generalizing r with
  | nil => exact h
  | cons i items ih =>
      have total : totalSize Item.size (i :: items) = i.size + totalSize Item.size items := rfl
      have same : (r.after i).valid = (r.after i).pos := by rw [after_valid, after_pos]
      rw [List.foldl_cons, ih same, after_pos, total, Nat.add_assoc]

/-! ## Single records -/

theorem step_begin {r : ReplayState} (h : r.pending = none) (ctx : String) (recEnd : Nat) :
    r.step ctx recEnd [tagBegin] = .ok (some { r with pending := some [], pos := recEnd }) := by
  simp [step, h]

theorem step_quad {r : ReplayState} {tx : List WalOp} (h : r.pending = some tx) (ctx : String)
    (recEnd : Nat) {op : WalOp} (short : op.ShortTerms) :
    r.step ctx recEnd (opPayload op) =
      .ok (some { r with pending := some (tx ++ [op]), pos := recEnd }) := by
  have parsed := parseOp_opFields short
  rw [show opPayload op = tagQuad :: opFields op from rfl]
  simp [step, h, parsed, tagQuad, tagBegin]

theorem leNat_word {v : Nat} (h : v < 2 ^ 64) : leNat ((leBytes 8 v).take 8) = v := by
  rw [List.take_of_length_le (by rw [length_leBytes])]
  exact leNat_leBytes_of_lt h

theorem step_commit {r : ReplayState} {ops : List WalOp} (h : r.pending = some ops) (ctx : String)
    (recEnd : Nat) {epoch : Nat} (word : epoch < 2 ^ 64) :
    r.step ctx recEnd (wordPayload tagCommit epoch) =
      .ok (some { r with
        pending := none
        committed := r.committed ++ [(epoch, ops)]
        valid := recEnd
        pos := recEnd }) := by
  simp [step, h, wordPayload, tagCommit, tagQuad, tagBegin, leNat_word word]

theorem step_checkpoint {r : ReplayState} (h : r.pending = none) (ctx : String) (recEnd : Nat)
    {freezeEpoch : Nat} (word : freezeEpoch < 2 ^ 64) :
    r.step ctx recEnd (wordPayload tagCheckpoint freezeEpoch) =
      .ok (some { r with
        committed := r.committed.filter fun c => decide (freezeEpoch < c.1)
        checkpointEpoch := max r.checkpointEpoch freezeEpoch
        valid := recEnd
        pos := recEnd }) := by
  simp [step, h, wordPayload, tagCheckpoint, tagCommit, tagQuad, tagBegin, leNat_word word]

theorem step_mark {r : ReplayState} (h : r.pending = none) (ctx : String) (recEnd : Nat)
    {tag : UInt8} (mark : tag = tagMergeStart ∨ tag = tagMergeCommit) (v : Nat) :
    r.step ctx recEnd (wordPayload tag v) =
      .ok (some { r with valid := recEnd, pos := recEnd }) := by
  rcases mark with rfl | rfl
  · simp [step, h, wordPayload, tagMergeStart, tagCheckpoint, tagCommit, tagQuad, tagBegin]
  · simp [step, h, wordPayload, tagMergeStart, tagMergeCommit, tagCheckpoint, tagCommit, tagQuad,
      tagBegin]

end ReplayState

/-- One record that replay takes. -/
theorem replayFrom_step (ctx : String) {r r' : ReplayState} {payload : Bytes} (h : Framed payload)
    (taken : r.step ctx (r.pos + 12 + payload.length) payload = .ok (some r')) (rest : Bytes) :
    replayFrom hash ctx r (frame hash payload ++ rest) = replayFrom hash ctx r' rest := by
  rw [replayFrom_frame hash ctx r h, taken]

/-- The quad records of an open transaction, one after the other. -/
theorem replayFrom_quads (ctx : String) {r : ReplayState} {t ops : List WalOp}
    (h : r.pending = some t) (good : ∀ op ∈ ops, op.ShortTerms ∧ Framed (opPayload op))
    (rest : Bytes) :
    replayFrom hash ctx r (frames hash (ops.map opPayload) ++ rest) =
      replayFrom hash ctx { r with
        pending := some (t ++ ops)
        pos := r.pos + totalSize frameSize (ops.map opPayload) } rest := by
  induction ops generalizing r t with
  | nil =>
      have same : { r with pending := some t, pos := r.pos } = r := by rw [← h]
      simp only [List.map_nil, List.append_nil]
      rw [show r.pos + totalSize frameSize [] = r.pos from rfl, same]
      rfl
  | cons op ops ih =>
      obtain ⟨short, framed⟩ := good op (by simp)
      have opened : frames hash ((op :: ops).map opPayload) ++ rest =
          frame hash (opPayload op) ++ (frames hash (ops.map opPayload) ++ rest) := by
        rw [← List.append_assoc]
        rfl
      have total : totalSize frameSize ((op :: ops).map opPayload) =
          12 + (opPayload op).length + totalSize frameSize (ops.map opPayload) := rfl
      rw [opened, replayFrom_step hash ctx framed (ReplayState.step_quad h ctx _ short),
        ih (t := t ++ [op]) rfl (fun q mem => good q (by simp [mem]))]
      rw [total, List.append_assoc, List.singleton_append]
      simp only [Nat.add_assoc]

/-- Replay of a whole item. -/
theorem replayFrom_item (ctx : String) {r : ReplayState} (h : r.pending = none) {i : Item}
    (good : i.Good) (rest : Bytes) :
    replayFrom hash ctx r (frames hash i.payloads ++ rest) =
      replayFrom hash ctx (r.after i) rest := by
  have single (payload : Bytes) : frames hash [payload] ++ rest = frame hash payload ++ rest := by
    simp [frames]
  cases i with
  | call a =>
      cases a with
      | tx epoch ops =>
          have opened : frames hash (Item.call (.tx epoch ops)).payloads ++ rest =
              frame hash [tagBegin] ++ (frames hash (ops.map opPayload) ++
                (frame hash (wordPayload tagCommit epoch) ++ rest)) := by
            simp [frames, Item.payloads, Append.payloads]
          have total : (Item.call (.tx epoch ops)).size =
              12 + 1 + (totalSize frameSize (ops.map opPayload) + (12 + 9)) := by
            have word := length_wordPayload tagCommit epoch
            simp [Item.size, Item.payloads, Append.payloads, totalSize, frameSize, word]
          rw [opened, replayFrom_step hash ctx framed_begin (ReplayState.step_begin h ctx _),
            replayFrom_quads hash ctx (t := []) rfl good.2,
            replayFrom_step hash ctx (framed_wordPayload _ _)
              (ReplayState.step_commit rfl ctx _ good.1)]
          simp only [ReplayState.after, total, length_wordPayload, List.length_singleton,
            Append.tx?, Option.toList_some, List.nil_append, Nat.add_assoc]
      | mergeStart freezeEpoch =>
          rw [show (Item.call (.mergeStart freezeEpoch)).payloads =
              [wordPayload tagMergeStart freezeEpoch] from rfl, single,
            replayFrom_step hash ctx (framed_wordPayload _ _)
              (ReplayState.step_mark h ctx _ (.inl rfl) _)]
          simp [ReplayState.after, Append.tx?, Item.size, Item.payloads, Append.payloads, totalSize,
            frameSize, Nat.add_assoc, h]
  | mergeCommit generation =>
      rw [show (Item.mergeCommit generation).payloads = [wordPayload tagMergeCommit generation]
          from rfl, single,
        replayFrom_step hash ctx (framed_wordPayload _ _)
          (ReplayState.step_mark h ctx _ (.inr rfl) _)]
      simp [ReplayState.after, Item.size, Item.payloads, totalSize, frameSize, Nat.add_assoc, h]
  | checkpoint freezeEpoch =>
      rw [show (Item.checkpoint freezeEpoch).payloads = [wordPayload tagCheckpoint freezeEpoch]
          from rfl, single,
        replayFrom_step hash ctx (framed_wordPayload _ _)
          (ReplayState.step_checkpoint h ctx _ good)]
      simp [ReplayState.after, Item.size, Item.payloads, totalSize, frameSize, Nat.add_assoc, h]

/-- Replay of whole items. -/
theorem replayFrom_items (ctx : String) {r : ReplayState} (h : r.pending = none)
    {items : List Item} (good : ∀ i ∈ items, i.Good) (rest : Bytes) :
    replayFrom hash ctx r (frames hash (items.flatMap Item.payloads) ++ rest) =
      replayFrom hash ctx (items.foldl ReplayState.after r) rest := by
  induction items generalizing r with
  | nil => rfl
  | cons i items ih =>
      rw [List.flatMap_cons, frames_append, List.append_assoc,
        replayFrom_item hash ctx h (good i (by simp)),
        ih (ReplayState.after_pending r i) fun j mem => good j (by simp [mem])]
      rfl

/-! ## Cuts -/

/-- Two replays with the same outcome: they may differ in an open transaction. -/
structure Settled (r r' : ReplayState) : Prop where
  valid : r'.valid = r.valid
  committed : r'.committed = r.committed
  checkpointEpoch : r'.checkpointEpoch = r.checkpointEpoch

theorem Settled.refl (r : ReplayState) : Settled r r := ⟨rfl, rfl, rfl⟩

/-- The opening of an item, without its last record, settles nothing. -/
theorem replayFrom_partial (ctx : String) {r : ReplayState} (h : r.pending = none) {i : Item}
    (good : i.Good) {n : Nat} (lt : n < i.payloads.length) :
    ∃ r', replayFrom hash ctx r (frames hash (i.payloads.take n)) = .ok r' ∧ Settled r r' := by
  cases n with
  | zero => exact ⟨r, replayFrom_nil hash ctx r, .refl r⟩
  | succ m =>
      cases i with
      | call a =>
          cases a with
          | tx epoch ops =>
              have bound : m ≤ ops.length := by
                simp only [Item.payloads, Append.payloads, List.length_cons, List.length_append,
                  List.length_map, List.length_nil] at lt
                omega
              have opened : frames hash ((Item.call (.tx epoch ops)).payloads.take (m + 1)) =
                  frame hash [tagBegin] ++ (frames hash ((ops.take m).map opPayload) ++ []) := by
                have kept : (ops.map opPayload ++ [wordPayload tagCommit epoch]).take m =
                    (ops.take m).map opPayload := by
                  rw [List.take_append_of_le_length (by simpa using bound), List.map_take]
                rw [show (Item.call (.tx epoch ops)).payloads.take (m + 1) = [tagBegin] ::
                  (ops.map opPayload ++ [wordPayload tagCommit epoch]).take m from rfl, kept,
                  List.append_nil]
                rfl
              refine ⟨{ r with
                pending := some (ops.take m)
                pos := r.pos + 12 + 1 + totalSize frameSize ((ops.take m).map opPayload) },
                ?_, ⟨rfl, rfl, rfl⟩⟩
              rw [opened, replayFrom_step hash ctx framed_begin (ReplayState.step_begin h ctx _),
                replayFrom_quads hash ctx (t := []) rfl
                  (fun op mem => good.2 op (List.mem_of_mem_take mem)),
                replayFrom_nil]
              rfl
          | mergeStart freezeEpoch => simp [Item.payloads, Append.payloads] at lt
      | mergeCommit generation => simp [Item.payloads] at lt
      | checkpoint freezeEpoch => simp [Item.payloads] at lt

/-- By induction on the items: the whole frames of a cut log are its whole items and the
opening of one more. -/
theorem replayFrom_wholeFrames (ctx : String) {r : ReplayState} (h : r.pending = none)
    {items : List Item} (good : ∀ i ∈ items, i.Good) (cut : Nat) :
    ∃ r', replayFrom hash ctx r
        (frames hash (wholeWithin frameSize cut (items.flatMap Item.payloads))) = .ok r' ∧
      Settled ((wholeWithin Item.size cut items).foldl ReplayState.after r) r' := by
  induction items generalizing r cut with
  | nil => exact ⟨r, replayFrom_nil hash ctx r, .refl r⟩
  | cons i items ih =>
      have goodI : i.Good := good i (by simp)
      rw [List.flatMap_cons]
      by_cases fits : i.size ≤ cut
      · obtain ⟨r', ran, settled⟩ := ih (ReplayState.after_pending r i)
          (fun j mem => good j (by simp [mem])) (cut - i.size)
        have whole := wholeWithin_append frameSize fits (items.flatMap Item.payloads)
        refine ⟨r', ?_, ?_⟩
        · rw [whole, frames_append, replayFrom_item hash ctx h goodI]
          exact ran
        · rw [wholeWithin, if_pos fits]
          exact settled
      · obtain ⟨n, lt, part⟩ := wholeWithin_append_of_lt frameSize (not_le.mp fits)
          (items.flatMap Item.payloads)
        obtain ⟨r', ran, settled⟩ := replayFrom_partial hash ctx h goodI lt
        refine ⟨r', ?_, ?_⟩
        · rw [part]
          exact ran
        · rw [wholeWithin, if_neg fits]
          exact settled

/-! ## Logs as items -/

/-- The records that open a rotated log. -/
def Log.headItems (log : Log) : List Item :=
  match log.head with
  | none => []
  | some (generation, freezeEpoch) => [.mergeCommit generation, .checkpoint freezeEpoch]

def Log.items (log : Log) : List Item := log.headItems ++ log.calls.map Item.call

theorem flatMap_call (calls : List Append) :
    (calls.map Item.call).flatMap Item.payloads = calls.flatMap Append.payloads := by
  rw [List.flatMap_map]
  rfl

theorem Log.payloads_eq (log : Log) : log.payloads = log.items.flatMap Item.payloads := by
  unfold Log.payloads Log.items Log.headItems
  rw [List.flatMap_append, flatMap_call]
  cases log.head with
  | none => rfl
  | some head => rfl

theorem foldl_frame (pending : Bytes) (ops : List WalOp) :
    ops.foldl (fun pending op => pending ++ frame hash (opPayload op)) pending =
      pending ++ frames hash (ops.map opPayload) := by
  induction ops generalizing pending with
  | nil => simp [frames]
  | cons op ops ih =>
      rw [List.foldl_cons, ih, List.append_assoc]
      rfl

theorem Append.write_eq (pending : Bytes) (a : Append) :
    a.write hash pending = pending ++ frames hash a.payloads := by
  cases a with
  | tx epoch ops =>
      simp only [Append.write, appendTxTerms, foldl_frame]
      simp [Append.payloads, frames]
  | mergeStart freezeEpoch => simp [Append.write, appendMergeStart, Append.payloads, frames]

theorem Appends.write_eq (a : Appends) (file : Bytes) :
    a.write hash file = file ++ frames hash ((a.calls.map Item.call).flatMap Item.payloads) := by
  rw [flatMap_call]
  unfold Appends.write
  induction a.calls generalizing file with
  | nil => simp [frames]
  | cons c calls ih =>
      rw [List.foldl_cons, ih, Append.write_eq, List.flatMap_cons, frames_append,
        List.append_assoc]

theorem Log.headBytes_eq (log : Log) :
    log.headBytes hash = frames hash (log.headItems.flatMap Item.payloads) := by
  unfold Log.headBytes Log.headItems
  cases log.head with
  | none => rfl
  | some head => simp [stageOpen, frames, Item.payloads]

theorem Log.bytes_eq (log : Log) :
    log.bytes hash = frames hash (log.items.flatMap Item.payloads) := by
  unfold Log.bytes Log.items
  rw [Appends.write_eq, Log.headBytes_eq, List.flatMap_append, frames_append]

theorem good_call {calls : List Append} (inRange : ∀ a ∈ calls, a.InRange)
    (short : ∀ tx ∈ calls.filterMap Append.tx?, ∀ op ∈ tx.2, (opPayload op).length < 2 ^ 32) :
    ∀ i ∈ calls.map Item.call, i.Good := by
  intro i mem
  obtain ⟨a, aMem, rfl⟩ := List.mem_map.mp mem
  cases a with
  | mergeStart freezeEpoch => trivial
  | tx epoch ops =>
      have range := inRange _ aMem
      have txMem : (epoch, ops) ∈ calls.filterMap Append.tx? :=
        List.mem_filterMap.mpr ⟨_, aMem, rfl⟩
      refine ⟨range.1, fun op opMem =>
        ⟨WalOp.shortTerms_of_terms (range.2 op opMem), ?_, ?_⟩⟩
      · simp [opPayload]
      · exact short _ txMem op opMem

theorem Log.good_headItems (log : Log) : ∀ i ∈ log.headItems, i.Good := by
  intro i mem
  have words := log.words
  unfold Log.headItems at mem
  cases found : log.head with
  | none => simp [found] at mem
  | some head =>
      simp only [found, List.mem_cons, List.not_mem_nil, or_false] at mem
      rcases mem with rfl | rfl
      · trivial
      · exact (words head found).2

theorem Log.good_items {log : Log} (short : log.ShortRecords) : ∀ i ∈ log.items, i.Good := by
  intro i mem
  rcases List.mem_append.mp mem with head | call
  · exact log.good_headItems i head
  · exact good_call log.inRange short i call

/-! ## Transactions -/

theorem committed_foldl_calls (r : ReplayState) (calls : List Append) :
    ((calls.map Item.call).foldl ReplayState.after r).committed =
      r.committed ++ calls.filterMap Append.tx? := by
  induction calls generalizing r with
  | nil => simp
  | cons a calls ih =>
      rw [List.map_cons, List.foldl_cons, ih, List.filterMap_cons]
      cases found : a.tx? <;> simp [ReplayState.after, found]

theorem committed_foldl_head (log : Log) :
    (log.headItems.foldl ReplayState.after .start).committed = [] := by
  unfold Log.headItems
  cases log.head <;> rfl

/-- Bytes of a call in the log. -/
def callSize (a : Append) : Nat := (Item.call a).size

theorem wholeWithin_calls (cut : Nat) (calls : List Append) :
    wholeWithin Item.size cut (calls.map Item.call) =
      (wholeWithin callSize cut calls).map Item.call := by
  induction calls generalizing cut with
  | nil => rfl
  | cons a calls ih =>
      rw [List.map_cons, wholeWithin, wholeWithin, ih]
      by_cases fits : callSize a ≤ cut
      · rw [if_pos fits, if_pos (show (Item.call a).size ≤ cut from fits)]
        rfl
      · rw [if_neg fits, if_neg (show ¬ (Item.call a).size ≤ cut from fits)]
        rfl

theorem length_write (pending : Bytes) (a : Append) :
    (a.write hash pending).length = pending.length + callSize a := by
  rw [Append.write_eq, List.length_append, length_frames]
  rfl

/-- The transactions committed within the cut are those of the whole calls. -/
theorem committedWithin_eq (cut : Nat) (written : Bytes) (calls : List Append) :
    committedWithin hash cut written calls =
      if written.length ≤ cut then
        (wholeWithin callSize (cut - written.length) calls).filterMap Append.tx?
      else [] := by
  induction calls generalizing written with
  | nil => simp [committedWithin, wholeWithin]
  | cons a calls ih =>
      rw [committedWithin, ih, length_write, wholeWithin]
      by_cases before : written.length ≤ cut
      · rw [if_pos before]
        by_cases fits : callSize a ≤ cut - written.length
        · rw [if_pos fits, if_pos (by omega), if_pos (by omega), List.filterMap_cons, Nat.sub_sub]
          cases a.tx? <;> rfl
        · rw [if_neg fits, if_neg (by omega), if_neg (by omega)]
          rfl
      · rw [if_neg before, if_neg (by omega), if_neg (by omega)]
        rfl

/-- The transactions of whole calls are later than the head's freeze epoch. -/
theorem Log.filter_later (log : Log) {generation freezeEpoch : Nat}
    (head : log.head = some (generation, freezeEpoch)) (cut : Nat) :
    ((wholeWithin callSize cut log.calls).filterMap Append.tx?).filter
        (fun tx => decide (freezeEpoch < tx.1)) =
      (wholeWithin callSize cut log.calls).filterMap Append.tx? := by
  rw [List.filter_eq_self]
  intro tx mem
  obtain ⟨n, part, -⟩ := wholeWithin_eq_take callSize log.calls cut
  obtain ⟨a, aMem, isTx⟩ := List.mem_filterMap.mp mem
  rw [part] at aMem
  have txMem : tx ∈ log.txs := List.mem_filterMap.mpr ⟨a, List.mem_of_mem_take aMem, isTx⟩
  exact decide_eq_true (log.later _ head tx txMem)

/-- The items within a cut commit the surviving transactions. -/
theorem Log.committed_kept (log : Log) (cut : Nat) :
    ((wholeWithin Item.size cut log.items).foldl ReplayState.after .start).committed =
      log.surviving hash cut := by
  unfold Log.surviving Log.checkpointWithin Log.items
  rw [committedWithin_eq, Log.headBytes_eq]
  cases head : log.head with
  | none =>
      have noHead : log.headItems = [] := by
        unfold Log.headItems
        rw [head]
      simp only [noHead, List.nil_append, wholeWithin_calls, committed_foldl_calls]
      simp [ReplayState.start, frames]
  | some h =>
      obtain ⟨generation, freezeEpoch⟩ := h
      have opened : log.headItems = [.mergeCommit generation, .checkpoint freezeEpoch] := by
        unfold Log.headItems
        rw [head]
      have sizeM : (Item.mergeCommit generation).size = 21 := by
        simp [Item.size, Item.payloads, totalSize, frameSize, length_wordPayload]
      have sizeC : (Item.checkpoint freezeEpoch).size = 21 := by
        simp [Item.size, Item.payloads, totalSize, frameSize, length_wordPayload]
      have length : (frames hash (log.headItems.flatMap Item.payloads)).length = 42 := by
        rw [opened]
        simp [frames, Item.payloads, length_wordPayload]
      have staged : (stageOpen hash generation freezeEpoch).length = 42 := by
        simp [stageOpen, length_wordPayload]
      rw [length]
      simp only [staged, opened, List.cons_append, List.nil_append, wholeWithin, sizeM, sizeC]
      by_cases whole : 42 ≤ cut
      · rw [if_pos (show 21 ≤ cut by omega), if_pos (show 21 ≤ cut - 21 by omega), if_pos whole,
          if_pos whole, wholeWithin_calls, List.foldl_cons, List.foldl_cons, committed_foldl_calls,
          Nat.sub_sub]
        simp only [Option.all_some]
        rw [log.filter_later head]
        rfl
      · rw [if_neg whole, if_neg whole]
        by_cases first : 21 ≤ cut
        · rw [if_pos first, if_neg (show ¬ 21 ≤ cut - 21 by omega)]
          rfl
        · rw [if_neg first]
          rfl

/-! ## Recovery -/

theorem delivers_of_replay {bytes : Bytes} {r : ReplayState}
    (h : ∀ ctx, ∃ r', replayFrom hash ctx .start bytes = .ok r' ∧ Settled r r') :
    Delivers hash bytes r.committed ⟨r.valid, r.checkpointEpoch⟩ := by
  intro σ ctx onCommit init
  obtain ⟨r', ran, settled⟩ := h ctx
  unfold replayBytes
  rw [ran]
  simp only [bind, Except.bind, settled.committed, settled.valid, settled.checkpointEpoch]
  cases r.committed.foldlM (fun s tx => onCommit s tx.1 tx.2) init <;> rfl

theorem foldlM_collect (txs acc : List (Nat × List WalOp)) :
    txs.foldlM (fun acc tx => (.ok (acc ++ [(tx.1, tx.2)]) : Except StoreError _)) acc =
      .ok (acc ++ txs) := by
  induction txs generalizing acc with
  | nil => simp [pure, Except.pure]
  | cons tx txs ih =>
      rw [List.foldlM_cons]
      simp only [bind, Except.bind]
      rw [ih, List.append_assoc]
      rfl

/-- What replay delivers is what it committed. -/
theorem Delivers.replay {bytes : Bytes} {txs : List (Nat × List WalOp)} {replayed : Replayed}
    (h : Delivers hash bytes txs replayed) :
    ∃ r, replayFrom hash "" .start bytes = .ok r ∧ r.committed = txs ∧
      replayed = ⟨r.valid, r.checkpointEpoch⟩ := by
  have collected := h _ "" (fun acc epoch ops => .ok (acc ++ [(epoch, ops)])) []
  rw [foldlM_collect] at collected
  unfold replayBytes at collected
  cases ran : replayFrom hash "" .start bytes with
  | error e =>
      rw [ran] at collected
      cases collected
  | ok r =>
      rw [ran] at collected
      simp only [bind, Except.bind] at collected
      rw [foldlM_collect] at collected
      cases collected
      exact ⟨r, rfl, rfl, rfl⟩

/-- The items wholly within a cut. -/
def Log.kept (log : Log) (cut : Nat) : List Item := wholeWithin Item.size cut log.items

theorem totalSize_flatMap (items : List Item) :
    totalSize frameSize (items.flatMap Item.payloads) = totalSize Item.size items := by
  induction items with
  | nil => rfl
  | cons i items ih =>
      rw [List.flatMap_cons, totalSize_append, ih]
      rfl

theorem Log.kept_good {log : Log} (short : log.ShortRecords) (cut : Nat) :
    ∀ i ∈ log.kept cut, i.Good := by
  intro i mem
  obtain ⟨n, part, -⟩ := wholeWithin_eq_take Item.size log.items cut
  unfold Log.kept at mem
  rw [part] at mem
  exact log.good_items short i (List.mem_of_mem_take mem)

/-- Replay of a log cut anywhere. -/
theorem Log.replay_cut {log : Log} (short : log.ShortRecords) (ctx : String) (cut : Nat) :
    ∃ r', replayFrom hash ctx .start ((log.bytes hash).take cut) = .ok r' ∧
      Settled ((log.kept cut).foldl ReplayState.after .start) r' := by
  have good := log.good_items short
  have framed : ∀ p ∈ log.items.flatMap Item.payloads, Framed p := by
    intro p mem
    obtain ⟨i, iMem, pMem⟩ := List.mem_flatMap.mp mem
    exact (good i iMem).framed p pMem
  rw [Log.bytes_eq, replayFrom_take hash ctx .start framed]
  exact replayFrom_wholeFrames hash ctx rfl good cut

theorem Log.valid_kept (log : Log) (cut : Nat) :
    ((log.kept cut).foldl ReplayState.after .start).valid =
      totalSize Item.size (log.kept cut) := by
  rw [ReplayState.foldl_after_valid rfl]
  exact Nat.zero_add _

/-- Truncating a cut log to its valid length leaves its whole items. -/
theorem Log.openAppend_kept (log : Log) (cut : Nat) :
    openAppend ((log.bytes hash).take cut) (totalSize Item.size (log.kept cut)) =
      frames hash ((log.kept cut).flatMap Item.payloads) := by
  obtain ⟨n, part, bound⟩ := wholeWithin_eq_take Item.size log.items cut
  have le : totalSize Item.size (log.kept cut) ≤ cut := by
    unfold Log.kept
    rw [part]
    exact bound
  have split : log.items = log.kept cut ++ log.items.drop n := by
    unfold Log.kept
    rw [part, List.take_append_drop]
  unfold openAppend
  rw [List.take_take, Nat.min_eq_left le, Log.bytes_eq]
  have bytes : frames hash (log.items.flatMap Item.payloads) =
      frames hash ((log.kept cut).flatMap Item.payloads) ++
        frames hash ((log.items.drop n).flatMap Item.payloads) := by
    rw [← frames_append, ← List.flatMap_append, ← split]
  rw [bytes]
  exact List.take_left' (by rw [length_frames, totalSize_flatMap])

theorem Log.frameBoundary_kept (log : Log) (cut : Nat) :
    log.FrameBoundary hash (totalSize Item.size (log.kept cut)) := by
  obtain ⟨n, part, -⟩ := wholeWithin_eq_take Item.size log.items cut
  have split : log.payloads = (log.kept cut).flatMap Item.payloads ++
      (log.items.drop n).flatMap Item.payloads := by
    rw [log.payloads_eq, ← List.flatMap_append]
    unfold Log.kept
    rw [part, List.take_append_drop]
  refine ⟨((log.kept cut).flatMap Item.payloads).length, ?_⟩
  rw [split, List.take_left]
  have length := length_frames hash ((log.kept cut).flatMap Item.payloads)
  rw [totalSize_flatMap] at length
  exact length.symm

/-- Logs of short records recover from every cut. -/
theorem recovers_of_shortRecords {log : Log} {more : Appends} (short : log.ShortRecords)
    (shortMore : more.ShortRecords) : Recovers hash log more := by
  intro cut
  have delivered := delivers_of_replay hash fun ctx => Log.replay_cut hash short ctx cut
  have committed := log.committed_kept hash cut
  rw [show wholeWithin Item.size cut log.items = log.kept cut from rfl] at committed
  rw [committed, log.valid_kept] at delivered
  refine ⟨_, delivered, log.frameBoundary_kept hash cut, ?_, ?_⟩
  · obtain ⟨n, part, bound⟩ := wholeWithin_eq_take Item.size log.items cut
    unfold Log.kept
    rw [part]
    exact bound
  · have written := more.write_eq hash (frames hash ((log.kept cut).flatMap Item.payloads))
    have goodMore := good_call more.inRange shortMore
    have again : ∀ ctx, ∃ r', replayFrom hash ctx .start (more.write hash
        (frames hash ((log.kept cut).flatMap Item.payloads))) = .ok r' ∧
        Settled ((more.calls.map Item.call).foldl ReplayState.after
          ((log.kept cut).foldl ReplayState.after .start)) r' := by
      intro ctx
      refine ⟨_, ?_, .refl _⟩
      rw [written, replayFrom_items hash ctx rfl (log.kept_good short cut),
        ← List.append_nil (frames hash ((more.calls.map Item.call).flatMap Item.payloads)),
        replayFrom_items hash ctx (ReplayState.foldl_after_pending rfl _) goodMore,
        replayFrom_nil]
    have delivered' := delivers_of_replay hash again
    rw [committed_foldl_calls, committed] at delivered'
    rw [log.openAppend_kept]
    exact ⟨_, delivered'⟩

/-! ## Long records -/

/-- A quad record of `2 ^ 32` bytes or more ends the replay or fails it. -/
theorem replayFrom_long (ctx : String) {r r' : ReplayState} {tx : List WalOp}
    (h : r.pending = some tx) {op : WalOp} (terms : op.ShortTerms)
    (long : 2 ^ 32 ≤ (opPayload op).length) (rest : Bytes)
    (ran : replayFrom hash ctx r (frame hash (opPayload op) ++ rest) = .ok r') : r' = r := by
  have read := readFrame_frame_append hash (opPayload op) rest
  by_cases torn : hash ((opPayload op).take ((opPayload op).length % 2 ^ 32)) ≠
      hash (opPayload op) ∨ (opPayload op).take ((opPayload op).length % 2 ^ 32) = []
  · rw [if_pos torn] at read
    rw [replayFrom_of_none hash ctx r read] at ran
    exact (Except.ok.inj ran).symm
  · rw [if_neg torn] at read
    have opened : opPayload op = tagQuad :: opFields op := rfl
    have whole : (opPayload op).length = (opFields op).length + 1 := by
      rw [opened, List.length_cons]
    obtain ⟨k, kept⟩ : ∃ k, (opPayload op).length % 2 ^ 32 = k + 1 := by
      cases kept : (opPayload op).length % 2 ^ 32 with
      | zero =>
          rw [kept] at torn
          simp at torn
      | succ k => exact ⟨k, rfl⟩
    have short : k < (opFields op).length := by
      have := Nat.mod_lt (opPayload op).length (show 0 < 2 ^ 32 by omega)
      omega
    rw [kept, opened, List.take_succ_cons] at read
    rw [replayFrom] at ran
    split at ran
    · rename_i none_
      rw [opened, read] at none_
      cases none_
    · rename_i payload rest' read'
      rw [opened, read] at read'
      cases read'
      have fails : ∀ recEnd, r.step ctx recEnd (tagQuad :: (opFields op).take k) =
          .error (ReplayState.bad ctx "malformed quad record" r.pos) := by
        intro recEnd
        simp [ReplayState.step, h, parseOp_cut terms short, tagQuad, tagBegin]
      rw [fails] at ran
      cases ran

/-- A transaction with a long record commits nothing. -/
theorem replayFrom_longTx (ctx : String) {r r' : ReplayState} (h : r.pending = none) {epoch : Nat}
    {ops : List WalOp} (terms : ∀ op ∈ ops, op.ShortTerms)
    (long : ∃ op ∈ ops, 2 ^ 32 ≤ (opPayload op).length) (rest : Bytes)
    (ran : replayFrom hash ctx r (frames hash (Append.tx epoch ops).payloads ++ rest) = .ok r') :
    r'.committed = r.committed := by
  have first : ∃ pre op post, ops = pre ++ op :: post ∧
      (∀ q ∈ pre, (opPayload q).length < 2 ^ 32) ∧ 2 ^ 32 ≤ (opPayload op).length := by
    clear ran terms
    induction ops with
    | nil => simp at long
    | cons op ops ih =>
        by_cases here : 2 ^ 32 ≤ (opPayload op).length
        · exact ⟨[], op, ops, rfl, by simp, here⟩
        · have later : ∃ op ∈ ops, 2 ^ 32 ≤ (opPayload op).length := by
            obtain ⟨q, mem, qLong⟩ := long
            rcases List.mem_cons.mp mem with rfl | mem
            · exact absurd qLong here
            · exact ⟨q, mem, qLong⟩
          obtain ⟨pre, q, post, rfl, short, qLong⟩ := ih later
          refine ⟨op :: pre, q, post, rfl, ?_, qLong⟩
          intro x mem
          rcases List.mem_cons.mp mem with rfl | mem
          · omega
          · exact short x mem
  obtain ⟨pre, op, post, rfl, short, opLong⟩ := first
  have opened : frames hash (Append.tx epoch (pre ++ op :: post)).payloads ++ rest =
      frame hash [tagBegin] ++ (frames hash (pre.map opPayload) ++ (frame hash (opPayload op) ++
        (frames hash (post.map opPayload ++ [wordPayload tagCommit epoch]) ++ rest))) := by
    simp [frames, Append.payloads]
  have good : ∀ q ∈ pre, q.ShortTerms ∧ Framed (opPayload q) := by
    intro q mem
    exact ⟨terms q (by simp [mem]), by simp [opPayload], short q mem⟩
  rw [opened, replayFrom_step hash ctx framed_begin (ReplayState.step_begin h ctx _),
    replayFrom_quads hash ctx (t := []) rfl good] at ran
  have stopped := replayFrom_long hash ctx rfl (terms op (by simp)) opLong _ ran
  rw [stopped]

/-- By induction on the calls: a long record loses a transaction. -/
theorem committed_lt_of_long (ctx : String) {r r' : ReplayState} (h : r.pending = none)
    {calls : List Append} (inRange : ∀ a ∈ calls, a.InRange)
    (long : ∃ tx ∈ calls.filterMap Append.tx?, ∃ op ∈ tx.2, 2 ^ 32 ≤ (opPayload op).length)
    (ran : replayFrom hash ctx r (frames hash ((calls.map Item.call).flatMap Item.payloads)) =
      .ok r') :
    r'.committed.length < r.committed.length + (calls.filterMap Append.tx?).length := by
  induction calls generalizing r with
  | nil => simp at long
  | cons a calls ih =>
      rw [List.map_cons, List.flatMap_cons, frames_append] at ran
      have rangeA : a.InRange := inRange a (by simp)
      have rangeRest : ∀ b ∈ calls, b.InRange := fun b mem => inRange b (by simp [mem])
      by_cases here : ∃ tx, a.tx? = some tx ∧ ∃ op ∈ tx.2, 2 ^ 32 ≤ (opPayload op).length
      · obtain ⟨tx, isTx, longA⟩ := here
        cases a with
        | mergeStart freezeEpoch => cases isTx
        | tx epoch ops =>
            cases isTx
            have terms : ∀ op ∈ ops, op.ShortTerms := fun op mem =>
              WalOp.shortTerms_of_terms (rangeA.2 op mem)
            rw [replayFrom_longTx hash ctx h terms longA _ ran]
            simp [Append.tx?]
      · have shortA : ∀ tx ∈ [a].filterMap Append.tx?, ∀ op ∈ tx.2,
            (opPayload op).length < 2 ^ 32 := by
          intro tx mem op opMem
          by_contra big
          obtain ⟨b, bMem, isTx⟩ := List.mem_filterMap.mp mem
          rw [List.mem_singleton.mp bMem] at isTx
          exact here ⟨tx, isTx, op, opMem, by omega⟩
        have goodA : (Item.call a).Good :=
          good_call (by simpa using rangeA) shortA (Item.call a) (by simp)
        rw [replayFrom_item hash ctx h goodA] at ran
        have longRest : ∃ tx ∈ calls.filterMap Append.tx?, ∃ op ∈ tx.2,
            2 ^ 32 ≤ (opPayload op).length := by
          obtain ⟨tx, mem, longTx⟩ := long
          obtain ⟨b, bMem, isTx⟩ := List.mem_filterMap.mp mem
          rcases List.mem_cons.mp bMem with rfl | bMem
          · exact absurd ⟨tx, isTx, longTx⟩ here
          · exact ⟨tx, List.mem_filterMap.mpr ⟨b, bMem, isTx⟩, longTx⟩
        have lost := ih (ReplayState.after_pending r _) rangeRest longRest ran
        rw [List.filterMap_cons]
        cases found : a.tx? with
        | none => simpa [ReplayState.after, found] using lost
        | some tx =>
            simp only [ReplayState.after, found, Option.toList_some, List.length_append,
              List.length_singleton] at lost
            simp only [List.length_cons]
            omega

theorem not_shortRecords {a : Appends} (h : ¬ a.ShortRecords) :
    ∃ tx ∈ a.calls.filterMap Append.tx?, ∃ op ∈ tx.2, 2 ^ 32 ≤ (opPayload op).length := by
  unfold Appends.ShortRecords at h
  push Not at h
  exact h

/-- With nothing cut every transaction survives. -/
theorem Log.surviving_whole (log : Log) : log.surviving hash (log.bytes hash).length = log.txs := by
  rw [← log.committed_kept hash]
  have all : wholeWithin Item.size (log.bytes hash).length log.items = log.items := by
    have fits : totalSize Item.size log.items ≤ (log.bytes hash).length := by
      rw [log.bytes_eq, length_frames, totalSize_flatMap]
    have whole := wholeWithin_append Item.size fits []
    rw [List.append_nil, wholeWithin, List.append_nil] at whole
    exact whole
  rw [all]
  unfold Log.items
  rw [List.foldl_append, committed_foldl_calls, committed_foldl_head, List.nil_append]
  rfl

theorem shortRecords_of_recovers {log : Log} {more : Appends} (h : Recovers hash log more) :
    log.ShortRecords ∧ more.ShortRecords := by
  obtain ⟨replayed, delivered, -, -, replayed', delivered'⟩ := h (log.bytes hash).length
  rw [List.take_length, log.surviving_whole] at delivered delivered'
  have short : log.ShortRecords := by
    by_contra long
    obtain ⟨r, ran, committed, -⟩ := delivered.replay
    rw [log.bytes_eq] at ran
    unfold Log.items at ran
    rw [List.flatMap_append, frames_append,
      replayFrom_items hash "" rfl log.good_headItems] at ran
    have lost := committed_lt_of_long hash "" (ReplayState.foldl_after_pending rfl _) log.inRange
      (not_shortRecords long) ran
    rw [committed_foldl_head, committed] at lost
    exact absurd lost (by simp [Appends.txs])
  refine ⟨short, ?_⟩
  by_contra long
  -- the first replay fixes where the new calls are appended
  obtain ⟨r, ran, -, rfl⟩ := delivered.replay
  obtain ⟨r', ran', settled⟩ := Log.replay_cut hash short "" (log.bytes hash).length
  rw [List.take_length, ran] at ran'
  cases ran'
  have valid := settled.valid
  rw [log.valid_kept] at valid
  obtain ⟨final, again, committed, -⟩ := delivered'.replay
  have file := log.openAppend_kept hash (log.bytes hash).length
  rw [List.take_length] at file
  rw [valid, file, more.write_eq,
    replayFrom_items hash "" rfl (log.kept_good short _)] at again
  have lost := committed_lt_of_long hash "" (ReplayState.foldl_after_pending rfl _) more.inRange
    (not_shortRecords long) again
  have before := log.committed_kept hash (log.bytes hash).length
  rw [log.surviving_whole] at before
  rw [show log.kept (log.bytes hash).length =
    wholeWithin Item.size (log.bytes hash).length log.items from rfl, before, committed] at lost
  exact absurd lost (by simp [Appends.txs])

/-- Recovery from every cut, and with every continuation, holds exactly for logs whose quad
records are shorter than `2 ^ 32` bytes. -/
theorem recovers_iff (hash : Bytes → UInt64) (log : Log) (more : Appends) :
    Recovers hash log more ↔ log.ShortRecords ∧ more.ShortRecords :=
  ⟨shortRecords_of_recovers hash,
    fun short => recovers_of_shortRecords hash short.1 short.2⟩

/-! ## A long record -/

/-- A quad with the given object. -/
def objectOp (o : Bytes) : WalOp := ⟨false, [0x3E, 0x61, 0x3A], [0x3E, 0x61, 0x3A], o, none⟩

/-- A log of one transaction that adds the quad. -/
def objectLog (o : Bytes) (h : o.length < 2 ^ 32) : Log where
  calls := [.tx 1 [objectOp o]]
  inRange := by
    intro a mem
    rw [List.mem_singleton.mp mem]
    refine ⟨by decide, fun op opMem t tMem => ?_⟩
    rw [List.mem_singleton.mp opMem] at tMem
    simp only [WalOp.terms, objectOp, Option.toList_none, List.append_nil, List.mem_cons,
      List.not_mem_nil, or_false] at tMem
    rcases tMem with rfl | rfl | rfl
    · simp
    · simp
    · exact h
  head := none
  words := by
    intro head mem
    cases mem
  later := by
    intro head mem
    cases mem

theorem not_recovers_objectLog {o : Bytes} (h : o.length < 2 ^ 32) (long : 2 ^ 32 ≤ o.length + 1)
    (more : Appends) : ¬ Recovers hash (objectLog o h) more := by
  intro recovers
  have short := (shortRecords_of_recovers hash recovers).1 (1, [objectOp o])
    (List.mem_filterMap.mpr ⟨.tx 1 [objectOp o], by simp [objectLog], rfl⟩) (objectOp o) (by simp)
  simp only [opPayload, objectOp, List.length_cons, List.length_append, length_putBytes] at short
  omega

/-- A literal of `2 ^ 32 - 1` bytes. -/
def longLiteral : Bytes := 0x22 :: List.replicate (2 ^ 32 - 2) 0x61

theorem length_longLiteral : longLiteral.length = 2 ^ 32 - 1 := by
  unfold longLiteral
  rw [List.length_cons, List.length_replicate]
  omega

theorem longLiteral_lt : longLiteral.length < 2 ^ 32 :=
  length_longLiteral.trans_lt (by decide)

theorem longLiteral_long : 2 ^ 32 ≤ longLiteral.length + 1 :=
  Nat.le_of_eq (congrArg (· + 1) length_longLiteral.symm)

/-- A transaction whose only quad has an object of `2 ^ 32 - 1` bytes is not recovered. -/
theorem not_recovers_longLiteral :
    ¬ Recovers (fun payload => UInt64.ofNat payload.sum.toNat)
      (objectLog longLiteral longLiteral_lt) ⟨[], by simp⟩ :=
  not_recovers_objectLog _ longLiteral_lt longLiteral_long _

end Graphy.WalBytes
