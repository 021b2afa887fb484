import RemoteMenu.Proofs.Update.Tallies

/-!
# Counts of artworks

A report counts the artworks that were to be uploaded, and the failures that the upload came back with. These are named
as the uploader likes, so that the two counts tell how many artworks arrived just if no failure is of another name
(`Operation.Moves.counts_uploads`).
-/

namespace RemoteMenu

namespace UploadReport

/-- Failures of artworks that were not to be uploaded. -/
def strays (r : UploadReport) : List String := r.failed.keys.filter (!r.requested.contains ·)

theorem strays_eq_nil_iff (r : UploadReport) : r.strays = [] ↔ ∀ name ∈ r.failed, name ∈ r.requested := by
  simp [strays, List.filter_eq_nil_iff]

/-- A requested artwork has either arrived or failed, and a failure is of a requested artwork or of another. -/
theorem uploadedCount_add_size (r : UploadReport) (distinct : r.requested.Nodup) :
    r.uploadedCount + r.failed.size = r.requested.length + r.strays.length := by
  have both : (r.requested.filter r.failed.contains).Perm (r.failed.keys.filter r.requested.contains) := by
    rw [List.perm_ext_iff_of_nodup (distinct.filter _) (Std.HashMap.nodup_keys.filter _)]
    intro name
    simp [and_comm]
  have requested := List.length_eq_length_filter_add (l := r.requested) r.failed.contains
  have failed := List.length_eq_length_filter_add (l := r.failed.keys) r.requested.contains
  rw [Std.HashMap.length_keys, ← both.length_eq] at failed
  rw [uploadedCount, strays]
  omega

end UploadReport

structure Stats.OfUpload (stats : Stats) (upload : UploadReport) : Prop where
  requested : stats.artworksRequested = upload.requested.length
  failed : stats.artworksFailed = upload.failed.size
  balance : upload.uploadedCount + stats.artworksFailed = stats.artworksRequested + upload.strays.length
  agrees : stats.artworksFailed ≤ stats.artworksRequested ∧
    stats.artworksRequested - stats.artworksFailed = upload.uploadedCount ↔
      ∀ name ∈ upload.failed, name ∈ upload.requested

namespace Operation

/-- An update uploads once at most. Its report has the number of artworks asked for and that of all failures, whatever
these are of; they tell how many artworks arrived just if all failures are of artworks that were asked for. -/
theorem Moves.counts_uploads {job : Job} {current : Menu} {ids : IdSupply} {t : Trace} {op : Operation}
    {report : Report} (way : (schedule job current ids).Moves t op)
    (ended : op.ending? = some (.returned (.finished report))) :
    (t.uploads = [] ∧ report.stats.artworksRequested = 0 ∧ report.stats.artworksFailed = 0) ∨
      ∃ upload, t.uploads = [upload] ∧ report.stats.OfUpload upload := by
  obtain ⟨stats, -, uploads⟩ := way.tallies ended
  obtain ⟨-, -, -, -, -, -, -, requested, failed⟩ := Stats.ext_iff.mp stats
  replace requested : report.stats.artworksRequested = (t.uploads.map (·.requested.length)).sum :=
    requested.trans (Nat.zero_add _)
  replace failed : report.stats.artworksFailed = (t.uploads.map (·.failed.size)).sum := failed.trans (Nat.zero_add _)
  rcases uploads with none | ⟨-, upload, one, distinct⟩
  · rw [none] at requested failed
    exact .inl ⟨none, requested, failed⟩
  · rw [one, List.map_cons, List.map_nil, List.sum_cons, List.sum_nil, Nat.add_zero] at requested failed
    have balance := upload.uploadedCount_add_size distinct
    rw [← requested, ← failed] at balance
    refine .inr ⟨upload, one, requested, failed, balance, ?_⟩
    rw [← upload.strays_eq_nil_iff, ← List.length_eq_zero_iff]
    omega

end Operation

/-! ### An uploader that tells of other failures -/

def Answers.straying : Answers
  | .upload _ => .ofList [("x", "unknown"), ("y", "unknown")]
  | r => Answers.taking true r

def iconJob : Job where
  id := 1
  setup := { settings := {}, uploads := true }
  target := [{ entry := { title := "A", icon := some (.ofFile "a" "/a") } }]
  notifies := false

namespace Operation

theorem Moves.counts_uploads_icon :
    let (op, t) := (schedule iconJob [] default).play (fun _ => .straying) 6
    ∃ report, op.ending? = some (.returned (.finished report)) ∧ t.uploads.length = 1 ∧
      ((t.uploads = [] ∧ report.stats.artworksRequested = 0 ∧ report.stats.artworksFailed = 0) ∨
        ∃ upload, t.uploads = [upload] ∧ report.stats.OfUpload upload) :=
  ⟨_, rfl, rfl, Moves.counts_uploads (play_moves (schedule iconJob [] default) (fun _ => .straying) 6) rfl⟩

/-- More artworks may be reported as failed than were asked for, when all of these have arrived. -/
theorem failed_exceeds_requested :
    let (op, t) := (schedule iconJob [] default).play (fun _ => .straying) 6
    ∃ report upload, op.ending? = some (.returned (.finished report)) ∧ t.uploads = [upload] ∧
      upload.requested = ["a"] ∧ upload.uploadedCount = 1 ∧
      report.stats.artworksRequested = 1 ∧ report.stats.artworksFailed = 2 := by
  have size : (Std.HashMap.ofList [("x", "unknown"), ("y", "unknown")]).size = 2 := Std.HashMap.size_ofList (by decide)
  refine ⟨_, ⟨["a"], .ofList [("x", "unknown"), ("y", "unknown")]⟩, rfl, rfl, rfl, ?_, rfl, ?_⟩
  · simp [UploadReport.uploadedCount]
  · exact (Nat.zero_add _).trans size

end Operation

end RemoteMenu
