import Graphy.Store.DictMerge
import Graphy.Store.Proofs.SnapshotScan

/-!
# The scans of a merge

A merge reads the frozen snapshot in two scans.  With enough fuel each ends, and whenever
it ends it has given the quads of the snapshot.
-/

namespace Graphy

namespace QuadScan

theorem rows_of_yields {scan : QuadScan} {batches : List (List QuadKey)}
    (yields : scan.Yields QuadBatch.batchCapacity batches) :
    scan.rows (batches.length + 1) = .ok (some batches.flatten) := by
  induction yields with
  | done step =>
      simp only [rows, step]
      rfl
  | more step rest ih =>
      rw [List.length_cons, rows, step]
      change (do
        let rest ← rows _ _
        return rest.map (_ ++ ·)) = _
      rw [ih]
      rfl

theorem yields_of_rows {fuel : Nat} {scan : QuadScan} {found : List QuadKey}
    (h : scan.rows fuel = .ok (some found)) :
    ∃ batches, scan.Yields QuadBatch.batchCapacity batches ∧ batches.flatten = found := by
  induction fuel generalizing scan found with
  | zero => cases h
  | succ fuel ih =>
      rw [rows] at h
      cases step : scan.nextBatch (QuadBatch.withCapacity QuadBatch.batchCapacity) with
      | error e =>
          rw [step] at h
          cases h
      | ok r =>
          obtain ⟨more, scan', out⟩ := r
          rw [step] at h
          cases more with
          | false =>
              cases h
              exact ⟨[], .done step, rfl⟩
          | true =>
              change (do
                let rest ← rows fuel scan'
                return rest.map (out.rows ++ ·)) = _ at h
              cases rest : scan'.rows fuel with
              | error e =>
                  rw [rest] at h
                  cases h
              | ok found' =>
                  rw [rest] at h
                  cases found' with
                  | none => cases h
                  | some tail =>
                      cases h
                      obtain ⟨batches, yields, rfl⟩ := ih rest
                      exact ⟨out.rows :: batches, .more step yields, rfl⟩

end QuadScan

namespace Snapshot

variable [InlineCodec] {snap : Snapshot}

theorem WF.scan_all (wf : snap.WF) (covered : (snap.delta.index .spo).isSome = true) :
    ∃ scan batches, snap.scan {} .spo = .ok scan ∧ scan.Yields QuadBatch.batchCapacity batches ∧
      ∀ q, q ∈ batches.flatten ↔ snap.containsKey q = true := by
  obtain ⟨quads, holds⟩ := wf.holds
  obtain ⟨scan, batches, run, yields, -, members⟩ :=
    (wf.scanCorrect holds.spo_offered covered {} (by decide : 0 < QuadBatch.batchCapacity)).mpr
      (by simp)
  exact ⟨scan, batches, run, yields, fun q => by rw [members]; simp [Pattern.Matches, Pattern.MatchesTriple]⟩

/-- With enough fuel the scan gives its rows. -/
theorem WF.rows_exist (wf : snap.WF) (covered : (snap.delta.index .spo).isSome = true) :
    ∃ fuel scan found, snap.scan {} .spo = .ok scan ∧ scan.rows fuel = .ok (some found) := by
  obtain ⟨scan, batches, run, yields, -⟩ := wf.scan_all covered
  exact ⟨_, scan, _, run, QuadScan.rows_of_yields yields⟩

/-- The rows of a scan are the quads of the snapshot. -/
theorem WF.mem_rows (wf : snap.WF) (covered : (snap.delta.index .spo).isSome = true)
    {scan : QuadScan} (run : snap.scan {} .spo = .ok scan) {fuel : Nat} {found : List QuadKey}
    (rows : scan.rows fuel = .ok (some found)) (q : QuadKey) :
    q ∈ found ↔ snap.containsKey q = true := by
  obtain ⟨scan', batches, run', yields, members⟩ := wf.scan_all covered
  rw [run] at run'
  cases run'
  obtain ⟨batches', yields', rfl⟩ := QuadScan.yields_of_rows rows
  rw [yields'.unique yields]
  exact members q

end Snapshot

end Graphy
