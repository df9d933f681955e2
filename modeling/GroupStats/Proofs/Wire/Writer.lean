import GroupStats.Wire.Writer
import GroupStats.Proofs.Step

/-!
# What a writer sends

Buffering does not show in what a writer delivers. Into a sink that takes every write whole,
an open writer sends, over any run of record writes, exactly the bytes of those records in
order, part of them still in its buffer; flushing or closing then hands over the rest. So the
bytes of a stream written record by record and then flushed or closed are its encoding.

A sink that takes every write whole is described by how a write changes its state, an action
of byte strings on the state: writing nothing changes nothing and two writes in a row act as
one write of both. A sink may take writes only in some states, such as buffers that take
writes while no budget is charged; writes keep it in such a state.
-/

namespace GroupStats

namespace Outlet

variable {σ : Type}

/-- In the states `ok` the sink `o` takes every write, and `act` says what a write does to its
state; writes keep the sink in those states. -/
structure Appends (o : Outlet σ) (ok : σ → Prop) (act : σ → Bytes → σ) : Prop where
  write : ∀ s data, ok s → (o.write data).apply s = (.ok (), act s data)
  flush : ∀ s, ok s → o.flush.apply s = (.ok (), s)
  close : ∀ s, ok s → o.close.apply s = (.ok (), s)
  nil : ∀ s, act s [] = s
  append : ∀ s a b, act (act s a) b = act s (a ++ b)
  keep : ∀ s data, ok s → ok (act s data)

/-- A sink in memory appends every write to the bytes it holds. -/
theorem memory_appends : memory.Appends (fun _ => True) (· ++ ·) where
  write _ _ _ := rfl
  flush _ _ := rfl
  close _ _ := rfl
  nil := List.append_nil
  append := List.append_assoc
  keep _ _ _ := trivial

end Outlet

namespace Wire

namespace Writer

variable {σ : Type} {o : Outlet σ} {ok : σ → Prop} {act : σ → Bytes → σ} {n : Nat}

/-- An open writer for `numStats` stats whose byte count matches its buffer. -/
structure Ready (numStats : Nat) (w : Writer) : Prop where
  numStats : w.numStats = numStats
  buffered : w.buffered = w.buffer.length
  isOpen : w.closed = false

/-- The commands that write a stream held as a value: a field switch for each field, a term
switch for each term and a group for each group, in order. -/
def commands (v : Ftgs) : List Command :=
  v.flatMap fun f => .field f.field :: f.terms.flatMap fun t =>
    .term t.term t.docFreq :: t.groups.map fun g => .group g.group g.stats

/-- A step of a ready writer that sends `data` on to a sink in a state that takes writes: it
succeeds, leaves the writer ready, and the bytes it hands to the sink followed by the new
buffer are the old buffer followed by `data`. -/
def Sends (ok : σ → Prop) (act : σ → Bytes → σ) (n : Nat) (x : Step (Writer × σ) Unit)
    (data : Bytes) : Prop :=
  ∀ w s, Ready n w → ok s → ∃ w' d, x.apply (w, s) = (.ok (), (w', act s d)) ∧
    d ++ w'.buffer = w.buffer ++ data ∧ Ready n w'

@[simp] theorem buffer_mk (numStats : Nat) (chunks : List Bytes) (buffered : Nat) (closed : Bool) :
    (Writer.mk numStats chunks buffered closed).buffer = chunks.reverse.flatten := rfl

/-- Draining hands the whole buffer to the sink and leaves the writer empty, open or closed as
it was. -/
theorem drain_spec (ho : o.Appends ok act) {w : Writer} (hw : w.buffered = w.buffer.length)
    {s : σ} (hs : ok s) :
    ∃ w', (drain o).apply (w, s) = (.ok (), (w', act s w.buffer)) ∧ w'.buffer = [] ∧
      w'.buffered = 0 ∧ w'.numStats = w.numStats ∧ w'.closed = w.closed := by
  by_cases h0 : w.buffered = 0
  · have hb : w.buffer = [] := List.eq_nil_of_length_eq_zero (hw ▸ h0)
    refine ⟨w, ?_, hb, h0, rfl, rfl⟩
    simp [drain, h0, hb, ho.nil]
  · refine ⟨{ w with chunks := [], buffered := 0 }, ?_, rfl, rfl, rfl, rfl⟩
    simp [drain, h0, toSink, ho.write _ _ hs]

/-- A ready writer is ready again after draining. -/
theorem drain_ready (ho : o.Appends ok act) {w : Writer} (hw : Ready n w) {s : σ} (hs : ok s) :
    ∃ w', (drain o).apply (w, s) = (.ok (), (w', act s w.buffer)) ∧ w'.buffer = [] ∧
      Ready n w' := by
  obtain ⟨w', h, hb, h0, hn, hc⟩ := drain_spec ho hw.buffered hs
  exact ⟨w', h, hb, ⟨hn.trans hw.numStats, by rw [h0, hb]; rfl, hc.trans hw.isOpen⟩⟩

theorem push_sends (ho : o.Appends ok act) (r : Record) : Sends ok act n (push o r) r.encode := by
  intro w s hw hs
  let w₁ : Writer := { w with chunks := r.encode :: w.chunks,
                              buffered := w.buffered + r.encode.length }
  have hw₁ : Ready n w₁ := ⟨hw.numStats, by simp [w₁, hw.buffered, buffer], hw.isOpen⟩
  by_cases hfull : drainThreshold ≤ w₁.buffered
  · -- the record fills the buffer: everything buffered goes to the sink
    obtain ⟨w', hd, hb, hw'⟩ := drain_ready ho hw₁ hs
    refine ⟨w', w₁.buffer, ?_, by rw [hb, List.append_nil]; simp [w₁, buffer], hw'⟩
    simp only [push, checkOpen, Step.apply_bind, Step.apply_get, hw.isOpen, Step.apply_modify]
    simp [w₁] at hfull hd
    simp [hfull, hd, w₁]
  · refine ⟨w₁, [], ?_, by simp [w₁, buffer], hw₁⟩
    simp only [push, checkOpen, Step.apply_bind, Step.apply_get, hw.isOpen, Step.apply_modify]
    have hlow : ¬ drainThreshold ≤ w.buffered + r.encode.length := by simpa [w₁] using hfull
    simp [hlow, w₁, ho.nil]

theorem Sends.bind {x y : Step (Writer × σ) Unit} {a b : Bytes} (ho : o.Appends ok act)
    (hx : Sends ok act n x a) (hy : Sends ok act n y b) :
    Sends ok act n (x >>= fun _ => y) (a ++ b) := by
  intro w s hw hs
  obtain ⟨w₁, d₁, h₁, hb₁, hw₁⟩ := hx w s hw hs
  obtain ⟨w₂, d₂, h₂, hb₂, hw₂⟩ := hy w₁ (act s d₁) hw₁ (ho.keep s d₁ hs)
  refine ⟨w₂, d₁ ++ d₂, ?_, ?_, hw₂⟩
  · simp [h₁, h₂, ho.append]
  · rw [List.append_assoc, hb₂, ← List.append_assoc, hb₁, List.append_assoc]

theorem Sends.pure (ho : o.Appends ok act) : Sends ok act n (pure ()) [] := by
  intro w s hw _
  exact ⟨w, [], by simp [ho.nil], by simp, hw⟩

theorem Sends.forM {α : Type} (ho : o.Appends ok act) (g : α → Step (Writer × σ) Unit)
    (data : α → Bytes) (xs : List α) (h : ∀ x ∈ xs, Sends ok act n (g x) (data x)) :
    Sends ok act n (xs.forM g) (xs.flatMap data) := by
  induction xs with
  | nil => exact Sends.pure ho
  | cons x xs ih =>
    rw [List.flatMap_cons]
    exact Sends.bind ho (h x (by simp)) (ih fun y hy => h y (by simp [hy]))

/-- A group with the writer's stat count is written as its record. -/
theorem writeGroup_sends (ho : o.Appends ok act) {g : GroupId} {stats : List Int64}
    (hs : stats.length = n) :
    Sends ok act n (writeGroup o g stats) (Record.group g stats).encode := by
  intro w s hw hok
  obtain ⟨w', d, h, hb, hw'⟩ := push_sends ho (.group g stats) w s hw hok
  refine ⟨w', d, ?_, hb, hw'⟩
  simp only [writeGroup, checkOpen, Step.apply_bind, Step.apply_get, hw.isOpen, hs]
  simpa [hw.numStats] using h

/-- The bytes a command writes: those of its record, or none for flush, close and abort. -/
def Command.written : Command → Bytes
  | .field f => (Record.field f).encode
  | .intTerm t df => (Record.intTerm t df).encode
  | .bytesTerm b df => (Record.bytesTerm b df).encode
  | .term t df => (Record.term t df).encode
  | .group g stats => (Record.group g stats).encode
  | .flush | .close | .abort => []

/-- The commands of a stream write its encoding. -/
theorem flatMap_written_commands (v : Ftgs) : (commands v).flatMap Command.written = encode v := by
  simp [commands, encode, records, List.flatMap_assoc, Command.written, List.flatMap_map]

/-- Writing a stream whose stats have the writer's width sends its encoding. -/
theorem commands_sends (ho : o.Appends ok act) {v : Ftgs}
    (hv : ∀ f ∈ v, ∀ t ∈ f.terms, ∀ g ∈ t.groups, g.stats.length = n) :
    Sends ok act n ((commands v).forM (run o)) (encode v) := by
  rw [← flatMap_written_commands]
  apply Sends.forM ho
  intro c hc
  simp only [commands, List.mem_flatMap, List.mem_cons, List.mem_map] at hc
  obtain ⟨f, hf, rfl | ⟨t, ht, rfl | ⟨g, hg, rfl⟩⟩⟩ := hc
  · exact push_sends ho _
  · exact push_sends ho _
  · exact writeGroup_sends ho (hv f hf t ht g hg)

theorem flush_spec (ho : o.Appends ok act) {w : Writer} (hw : Ready n w) {s : σ} (hs : ok s) :
    ∃ w', (flush o).apply (w, s) = (.ok (), (w', act s w.buffer)) := by
  obtain ⟨w', hd, -⟩ := drain_spec ho hw.buffered hs
  exact ⟨w', by simp [flush, hd, toSink, ho.flush _ (ho.keep _ _ hs)]⟩

theorem close_spec (ho : o.Appends ok act) {w : Writer} (hw : Ready n w) {s : σ} (hs : ok s) :
    ∃ w', (close o).apply (w, s) = (.ok (), (w', act s w.buffer)) := by
  let w₁ : Writer := { w with closed := true }
  obtain ⟨w', hd, -⟩ := drain_spec ho (w := w₁) hw.buffered hs
  refine ⟨w', ?_⟩
  simp only [close, Step.apply_bind, Step.apply_get, hw.isOpen]
  simp [w₁] at hd
  simp [hd, toSink, ho.close _ (ho.keep _ _ hs)]
  rfl

/-- The bytes a writer leaves in an appending sink after writing a stream record by record and
then flushing or closing are the stream's encoding. -/
theorem run_commands (ho : o.Appends ok act) {v : Ftgs}
    (hv : ∀ f ∈ v, ∀ t ∈ f.terms, ∀ g ∈ t.groups, g.stats.length = n) (closing : Bool) {s : σ}
    (hs : ok s) :
    ∃ w', ((commands v ++ [if closing then Command.close else Command.flush]).forM (run o)).apply
      (create n, s) = (.ok (), (w', act s (encode v))) := by
  obtain ⟨w₁, d, h₁, hb, hw₁⟩ := commands_sends ho hv (create n) s ⟨rfl, rfl, rfl⟩ hs
  have hlast : ∃ w', (run o (if closing then Command.close else Command.flush)).apply (w₁, act s d) =
      (.ok (), (w', act s (encode v))) := by
    have hsum : act (act s d) w₁.buffer = act s (encode v) := by
      rw [ho.append, hb]
      rfl
    cases closing
    · obtain ⟨w', h⟩ := flush_spec ho hw₁ (ho.keep s d hs)
      exact ⟨w', by rw [← hsum]; exact h⟩
    · obtain ⟨w', h⟩ := close_spec ho hw₁ (ho.keep s d hs)
      exact ⟨w', by rw [← hsum]; exact h⟩
  obtain ⟨w', h'⟩ := hlast
  -- the list's own `forM` and the generic one are the same loop
  have h₁' : (forM (commands v) (run o)).apply (create n, s) = (.ok (), (w₁, act s d)) := h₁
  refine ⟨w', ?_⟩
  rw [show (commands v ++ [if closing then Command.close else Command.flush]).forM (run o) =
    (forM (commands v) (run o) >>= fun _ =>
      (run o (if closing then Command.close else Command.flush) >>= fun _ => pure ())) from
    by simp [List.forM_append]]
  simp [h₁', h']

end Writer

end Wire

end GroupStats
