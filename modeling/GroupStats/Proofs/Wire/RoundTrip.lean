import GroupStats.Proofs.Wire.Reader
import GroupStats.Proofs.Wire.Writer

/-!
# Reading back what was written

A stream written record by record into memory and then flushed or closed leaves its encoding
there, and a reader of those bytes walks the stream as its replay does: every sequence of
advances gets the same replies, and reading the reader to its end gives the stream back. Terms
and groups may come in any order; the stream has to be one the reader accepts.
-/

namespace GroupStats

namespace Wire

variable {numStats : Nat} {numGroups : UInt32} {v : Ftgs}

theorem length_termRecords (ts : List TermBlock) :
    (termRecords ts).length = ts.foldr (fun t m => 1 + t.groups.length + m) 0 := by
  induction ts with
  | nil => rfl
  | cons t ts ih =>
    rw [length_termRecords_cons, ih, List.foldr_cons]
    omega

/-- A stream has one record for each field, term and group. -/
theorem length_records (v : Ftgs) : (records v).length = v.size := by
  induction v with
  | nil => rfl
  | cons f v ih =>
    rw [records_eq, List.flatMap_cons, List.length_append, List.length_cons, ← records_eq, ih,
      length_termRecords, Ftgs.size_cons]
    omega

theorem size_le_length_encode (v : Ftgs) : v.size ≤ (encode v).length := by
  rw [← length_records]
  exact length_le_flatMap_encode (records v)

/-- A reader of an encoded stream answers every sequence of advances as the stream's replay. -/
theorem replies_ofBytes_encode (hv : Fits numStats numGroups v) (atLeast : UInt32)
    (as : List Cursor.Advance) :
    ((Cursor.replies as).apply (Reader.ofBytes (encode v) numStats numGroups)).1 =
      ((Cursor.replies as).apply (Replay.ofBlocks v numStats atLeast)).1 :=
  (Reader.tracks_simulation.replies_agree as _ _ (Reader.tracks_start hv _ _)).1

/-- Reading a reader of an encoded stream to its end gives the stream. -/
theorem collect_ofBytes_encode (hv : Fits numStats numGroups v) :
    (Cursor.collect.apply (Reader.ofBytes (encode v) numStats numGroups)).1 = .ok v := by
  -- the reader's fuel, one more than its byte count, is above every count of the stream
  have hfuel : (encode v).length < (encode v).length + 1 + 1 := by omega
  obtain ⟨r', hr⟩ := Replay.collectFields_start
    ((Ftgs.bounded_size v).mono (size_le_length_encode v)) hfuel numStats 0
  have hagree := Reader.tracks_simulation.collectFields_agree ((encode v).length + 1 + 1)
    ((encode v).length + 1 + 1) _ _ (Reader.tracks_start hv numStats 0)
  simp only [Cursor.collect, Step.apply_bind, Step.apply_get, Reader.cursor_budget]
  show ((Cursor.collectFields ((encode v).length + 1 + 1) ((encode v).length + 1 + 1)).apply _).1 = _
  rw [hagree.1, hr]

/-- Written record by record into memory and then flushed or closed, a stream the reader
accepts leaves its encoding there; a reader of it answers every sequence of advances as the
stream's replay does, and reading it to its end gives the stream. -/
theorem written_stream_reads_back (hv : Fits numStats numGroups v) (closing : Bool) :
    ∃ w, ((Writer.commands v ++ [if closing then Writer.Command.close else .flush]).forM
        (Writer.run Outlet.memory)).apply (Writer.create numStats, []) = (.ok (), (w, encode v)) ∧
      (∀ as : List Cursor.Advance,
        ((Cursor.replies as).apply (Reader.ofBytes (encode v) numStats numGroups)).1 =
          ((Cursor.replies as).apply (Replay.ofBlocks v numStats)).1) ∧
      (Cursor.collect.apply (Reader.ofBytes (encode v) numStats numGroups)).1 = .ok v := by
  obtain ⟨w, hw⟩ := Writer.run_commands Outlet.memory_appends hv.stats_length closing (s := [])
    trivial
  exact ⟨w, by simpa using hw, replies_ofBytes_encode hv 0, collect_ofBytes_encode hv⟩

/-- A one-field stream with one term and one group is accepted, written and read back. -/
theorem written_stream_reads_back_one_group :
    let v : Ftgs := [⟨⟨"n", .int⟩, [⟨.int 7, 1, [⟨0, [5]⟩]⟩]⟩]
    Fits 1 1 v ∧
      ∃ w, ((Writer.commands v ++ [Writer.Command.close]).forM
          (Writer.run Outlet.memory)).apply (Writer.create 1, []) = (.ok (), (w, encode v)) ∧
        (∀ as : List Cursor.Advance,
          ((Cursor.replies as).apply (Reader.ofBytes (encode v) 1 1)).1 =
            ((Cursor.replies as).apply (Replay.ofBlocks v 1)).1) ∧
        (Cursor.collect.apply (Reader.ofBytes (encode v) 1 1)).1 = .ok v := by
  intro v
  have hv : Fits 1 1 v := by
    intro f hf
    simp only [v, List.mem_singleton] at hf
    subst hf
    refine ⟨by rw [Utf8.ofString_eq_flatMap]; decide, ?_⟩
    intro t ht
    simp only [List.mem_singleton] at ht
    subst ht
    exact ⟨rfl, trivial, fun g hg => by simp only [List.mem_singleton] at hg; subst hg; decide⟩
  exact ⟨hv, written_stream_reads_back hv true⟩

end Wire

end GroupStats
