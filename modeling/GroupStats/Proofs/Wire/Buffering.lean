import GroupStats.Proofs.Wire.Writer

/-!
# Buffering does not show

A writer keeps records in a buffer and hands the whole buffer to its sink when a record brings
it to the drain threshold, and on flush and close. Over a sink in memory this is invisible: along
every run of steps, whatever each step answers, the sink followed by the buffer of an open writer
is the encoding of the records it accepted, the sink ends on a record boundary and the buffer
stays under the threshold (`Faithful`). Each step from such a state does what `Laws` lists: the
sink grows only by a whole buffer; flushing and closing leave every accepted record in the sink;
aborting leaves the sink as it was and drops the buffer; a closed writer refuses every record and
changes nothing; a group of the wrong width is refused. Main statement: `buffering_invisible`.
-/

namespace GroupStats

namespace Wire

namespace Writer

variable {σ : Type} {o : Outlet σ} {ok : σ → Prop} {act : σ → Bytes → σ}

/-! ### Commands and the records they write -/

/-- The record a command writes, or `none` for flush, close and abort. -/
def Command.record? : Command → Option Record
  | .field f => some (.field f)
  | .intTerm t df => some (.intTerm t df)
  | .bytesTerm b df => some (.bytesTerm b df)
  | .term t df => some (.term t df)
  | .group g stats => some (.group g stats)
  | .flush | .close | .abort => none

/-- Whether an open writer for groups of `n` stats takes the command: every command but a group
of another width. -/
def Command.Fits (n : Nat) : Command → Prop
  | .group _ stats => stats.length = n
  | _ => True

/-- The records a step adds to what the writer has accepted: the record of a record step that
succeeded. -/
def Command.accepted (c : Command) : Except Error Unit → List Record
  | .ok () => c.record?.toList
  | .error _ => []

@[simp] theorem Command.accepted_error (c : Command) (e : Error) : c.accepted (.error e) = [] := rfl

/-! ### One step -/

/-- A writer whose chunks were dropped buffers nothing. -/
@[simp] theorem buffer_drop (w : Writer) (b : Nat) :
    ({ w with chunks := [], buffered := b } : Writer).buffer = [] := rfl

/-- A record put after the newest chunk ends the buffer. -/
@[simp] theorem buffer_cons (w : Writer) (d : Bytes) (b : Nat) :
    ({ w with chunks := d :: w.chunks, buffered := b } : Writer).buffer = w.buffer ++ d := by
  simp [buffer]

theorem checkOpen_open {w : Writer} (hc : w.closed = false) (s : σ) :
    (checkOpen : Step (Writer × σ) Unit).apply (w, s) = (.ok (), (w, s)) := by
  simp [checkOpen, hc]

theorem checkOpen_closed {w : Writer} (hc : w.closed = true) (s : σ) :
    (checkOpen : Step (Writer × σ) Unit).apply (w, s) = (.error (.closed .writer), (w, s)) := by
  simp [checkOpen, hc]

/-- A record that brings the buffer to the threshold drains all of it, the record included; a
smaller one joins the buffer. -/
theorem push_apply (ho : o.Appends ok act) {w : Writer} (hc : w.closed = false)
    (hw : w.buffered = w.buffer.length) {s : σ} (hs : ok s) (r : Record) :
    (push o r).apply (w, s) =
      if drainThreshold ≤ w.buffer.length + r.encode.length then
        (.ok (), ({ w with chunks := [], buffered := 0 }, act s (w.buffer ++ r.encode)))
      else
        (.ok (), ({ w with chunks := r.encode :: w.chunks,
                           buffered := w.buffered + r.encode.length }, s)) := by
  simp only [push, Step.apply_bind, checkOpen_open hc, Step.apply_modify, Step.apply_get]
  rw [← hw]
  by_cases hfull : drainThreshold ≤ w.buffered + r.encode.length
  · have hne : w.buffered + r.encode.length ≠ 0 := by
      unfold drainThreshold at hfull
      omega
    simp only [ge_iff_le, hfull, ↓reduceIte, drain, Step.apply_bind, Step.apply_get, hne,
      Step.apply_set, toSink, Step.apply_focus, buffer_cons, ho.write _ _ hs]
  · simp [hfull]

/-- An open writer runs a record step it takes as a push of the record. -/
theorem run_eq_push {w : Writer} {c : Command} {r : Record} (hr : c.record? = some r)
    (hf : c.Fits w.numStats) (hc : w.closed = false) (s : σ) :
    (run o c).apply (w, s) = (push o r).apply (w, s) := by
  cases c with
  | group g stats =>
    cases hr
    simp only [Command.Fits] at hf
    simp [run, writeGroup, Step.apply_bind, checkOpen_open hc, hf]
  | flush | close | abort => cases hr
  | _ => cases hr; rfl

/-- A closed writer refuses every record step and changes nothing. -/
theorem run_closed_record {w : Writer} {c : Command} (hr : c.record?.isSome)
    (hc : w.closed = true) (s : σ) :
    (run o c).apply (w, s) = (.error (.closed .writer), (w, s)) := by
  cases c with
  | flush | close | abort => cases hr
  | group g stats => simp [run, writeGroup, Step.apply_bind, checkOpen_closed hc]
  | _ => simp [run, switchField, switchIntTerm, switchBytesTerm, switchTerm, push, Step.apply_bind,
      checkOpen_closed hc]

/-- An open writer refuses a group of another width and changes nothing. -/
theorem writeGroup_misfit {w : Writer} {g : GroupId} {stats : List Int64}
    (hn : stats.length ≠ w.numStats) (hc : w.closed = false) (s : σ) :
    (writeGroup o g stats).apply (w, s) =
      (.error (.invalidArgument (.statCount g stats.length w.numStats)), (w, s)) := by
  simp [writeGroup, Step.apply_bind, checkOpen_open hc, hn]

theorem drain_empty {w : Writer} (h0 : w.buffered = 0) (s : σ) :
    (drain o).apply (w, s) = (.ok (), (w, s)) := by
  simp [drain, h0]

/-- Flushing an open writer hands its buffer to the sink and leaves it open and empty. -/
theorem flush_apply (ho : o.Appends ok act) {w : Writer} (hw : w.buffered = w.buffer.length)
    {s : σ} (hs : ok s) :
    ∃ w', (flush o).apply (w, s) = (.ok (), (w', act s w.buffer)) ∧ w'.closed = w.closed ∧
      w'.buffer = [] ∧ w'.buffered = 0 ∧ w'.numStats = w.numStats := by
  obtain ⟨w', hd, hb, h0, hn, hc⟩ := drain_spec ho hw hs
  exact ⟨w', by simp [flush, hd, toSink, ho.flush _ (ho.keep _ _ hs)], hc, hb, h0, hn⟩

/-- Closing an open writer hands its buffer to the sink and leaves it closed and empty. -/
theorem close_apply (ho : o.Appends ok act) {w : Writer} (hc : w.closed = false)
    (hw : w.buffered = w.buffer.length) {s : σ} (hs : ok s) :
    ∃ w', (close o).apply (w, s) = (.ok (), (w', act s w.buffer)) ∧ w'.closed = true ∧
      w'.buffer = [] ∧ w'.buffered = 0 ∧ w'.numStats = w.numStats := by
  obtain ⟨w', hd, hb, h0, hn, hc'⟩ := drain_spec ho (w := { w with closed := true }) hw hs
  refine ⟨w', ?_, hc', hb, h0, hn⟩
  simp only [close, Step.apply_bind, Step.apply_get, hc, Bool.false_eq_true, ↓reduceIte,
    Step.apply_modify, Step.apply_attempt, hd, toSink, Step.apply_focus, ho.close _ (ho.keep _ _ hs)]
  rfl

/-- Aborting an open writer drops its buffer, ends the sink, and leaves the writer closed. -/
theorem abort_apply (ho : o.Appends ok act) {w : Writer} (hc : w.closed = false) {s : σ}
    (hs : ok s) :
    (abort o).apply (w, s) = (.ok (), ({ w with closed := true, chunks := [], buffered := 0 }, s)) := by
  simp [abort, Step.apply_bind, hc, toSink, ho.close _ hs]

/-- Closing or aborting a closed writer does nothing. -/
theorem close_closed {w : Writer} (hc : w.closed = true) (s : σ) :
    (close o).apply (w, s) = (.ok (), (w, s)) := by
  simp [close, hc]

theorem abort_closed {w : Writer} (hc : w.closed = true) (s : σ) :
    (abort o).apply (w, s) = (.ok (), (w, s)) := by
  simp [abort, hc]

/-! ### A writer over a sink in memory -/

/-- The states a writer over a sink in memory reaches from a fresh writer and an empty sink, one
command after another whatever each answers, with the records it has accepted so far. -/
inductive Run (n : Nat) : Writer × Bytes → List Record → Prop
  | start : Run n (create n, []) []
  | step {st : Writer × Bytes} {rs : List Record} (c : Command) : Run n st rs →
      Run n ((run Outlet.memory c).apply st).2
        (rs ++ c.accepted ((run Outlet.memory c).apply st).1)

/-- What a writer over a sink in memory keeps after accepting the records `rs`: the sink holds
the first of them, whole; an open writer buffers the others, fewer bytes than drain the buffer;
a closed writer buffers nothing. -/
structure Faithful (n : Nat) (rs : List Record) (w : Writer) (sink : Bytes) : Prop where
  numStats : w.numStats = n
  buffered : w.buffered = w.buffer.length
  boundary : ∃ j ≤ rs.length, sink = (rs.take j).flatMap Record.encode
  below : w.buffer.length < drainThreshold
  sent : w.closed = false → sink ++ w.buffer = rs.flatMap Record.encode
  drained : w.closed = true → w.buffer = []

/-- How each step acts on a writer over a sink in memory: an open writer takes every record of the
right width, growing the sink by the whole buffer only when the buffer reaches the threshold,
flushing and closing hand over the buffer, and aborting drops it. A closed writer, or a group of the
wrong width, is refused and changes nothing. -/
structure Laws (n : Nat) (w : Writer) (sink : Bytes) : Prop where
  record : ∀ c r, c.record? = some r → c.Fits n → w.closed = false →
    ∃ w', (run Outlet.memory c).apply (w, sink) =
        (.ok (), (w', if drainThreshold ≤ w.buffer.length + r.encode.length then
          sink ++ w.buffer ++ r.encode else sink)) ∧ w'.closed = false ∧
      w'.buffer = if drainThreshold ≤ w.buffer.length + r.encode.length then [] else
        w.buffer ++ r.encode
  misfit : ∀ g stats, stats.length ≠ n → w.closed = false →
    (run Outlet.memory (.group g stats)).apply (w, sink) =
      (.error (.invalidArgument (.statCount g stats.length n)), (w, sink))
  flush : w.closed = false → ∃ w', (run Outlet.memory .flush).apply (w, sink) =
    (.ok (), (w', sink ++ w.buffer)) ∧ w'.closed = false ∧ w'.buffer = []
  close : w.closed = false → ∃ w', (run Outlet.memory .close).apply (w, sink) =
    (.ok (), (w', sink ++ w.buffer)) ∧ w'.closed = true ∧ w'.buffer = []
  abort : w.closed = false → ∃ w', (run Outlet.memory .abort).apply (w, sink) =
    (.ok (), (w', sink)) ∧ w'.closed = true ∧ w'.buffer = []
  refuses : ∀ c, c.record?.isSome → w.closed = true →
    (run Outlet.memory c).apply (w, sink) = (.error (.closed .writer), (w, sink))
  idle : ∀ c, c.record? = none → w.closed = true →
    (run Outlet.memory c).apply (w, sink) = (.ok (), (w, sink))

variable {n : Nat} {rs : List Record} {w : Writer} {sink : Bytes}

theorem Faithful.laws (h : Faithful n rs w sink) : Laws n w sink where
  record c r hr hf hc := by
    rw [run_eq_push hr (h.numStats ▸ hf) hc,
      push_apply Outlet.memory_appends hc h.buffered (s := sink) trivial]
    split
    · exact ⟨{ w with chunks := [], buffered := 0 }, by simp [List.append_assoc], hc, rfl⟩
    · exact ⟨{ w with chunks := r.encode :: w.chunks, buffered := w.buffered + r.encode.length },
        rfl, hc, buffer_cons ..⟩
  misfit g stats hn hc := by
    have := writeGroup_misfit (o := Outlet.memory) (g := g) (h.numStats ▸ hn) hc sink
    rw [h.numStats] at this
    exact this
  flush hc := by
    obtain ⟨w', hrun, hc', hb, -⟩ := flush_apply Outlet.memory_appends h.buffered (s := sink) trivial
    exact ⟨w', hrun, hc'.trans hc, hb⟩
  close hc := by
    obtain ⟨w', hrun, hc', hb, -⟩ :=
      close_apply Outlet.memory_appends hc h.buffered (s := sink) trivial
    exact ⟨w', hrun, hc', hb⟩
  abort hc := ⟨_, abort_apply Outlet.memory_appends hc trivial, rfl, by simp [buffer]⟩
  refuses _ hr hc := run_closed_record hr hc sink
  idle c hr hc := by
    cases c with
    | flush =>
      have h0 : w.buffered = 0 := by rw [h.buffered, h.drained hc]; rfl
      simp [run, flush, drain_empty h0, toSink, Outlet.memory]
    | close => exact close_closed hc sink
    | abort => exact abort_closed hc sink
    | _ => cases hr

/-- A writer whose whole buffer went to the sink keeps what it accepted, open or closed. -/
theorem Faithful.emptied (h : Faithful n rs w sink) (hc : w.closed = false) {w' : Writer}
    (hn : w'.numStats = n) (hb : w'.buffer = []) (h0 : w'.buffered = 0) :
    Faithful n rs w' (sink ++ w.buffer) where
  numStats := hn
  buffered := by rw [hb, h0]; rfl
  boundary := ⟨rs.length, Nat.le_refl _, by rw [List.take_length, h.sent hc]⟩
  below := by rw [hb]; decide
  sent _ := by rw [hb, List.append_nil, h.sent hc]
  drained _ := hb

/-- A record that fills the buffer sends all the writer accepted, the record included. -/
theorem Faithful.push_drains (h : Faithful n rs w sink) (hc : w.closed = false) (r : Record) :
    Faithful n (rs ++ [r]) { w with chunks := [], buffered := 0 } (sink ++ (w.buffer ++ r.encode)) := by
  have hsent : sink ++ (w.buffer ++ r.encode) = (rs ++ [r]).flatMap Record.encode := by
    rw [← List.append_assoc, h.sent hc]
    simp
  refine ⟨h.numStats, rfl, ⟨rs.length + 1, by simp, ?_⟩, by rw [buffer_drop]; decide,
    fun _ => ?_, fun _ => rfl⟩
  · rw [hsent, List.take_of_length_le (by simp)]
  · rw [buffer_drop, List.append_nil, hsent]

/-- A record that leaves the buffer below the threshold joins it. -/
theorem Faithful.push_keeps (h : Faithful n rs w sink) (hc : w.closed = false) (r : Record)
    (hlow : ¬ drainThreshold ≤ w.buffer.length + r.encode.length) :
    Faithful n (rs ++ [r])
      { w with chunks := r.encode :: w.chunks, buffered := w.buffered + r.encode.length } sink where
  numStats := h.numStats
  buffered := by rw [buffer_cons, List.length_append, h.buffered]
  boundary := by
    obtain ⟨j, hj, hsink⟩ := h.boundary
    exact ⟨j, by simp; omega, by rw [List.take_append_of_le_length hj, hsink]⟩
  below := by rw [buffer_cons, List.length_append]; omega
  sent _ := by rw [buffer_cons, ← List.append_assoc, h.sent hc, List.flatMap_append]; simp
  drained h' := absurd (hc.symm.trans h') (by decide)

/-- Aborting keeps what the sink holds and drops the buffer. -/
theorem Faithful.aborted (h : Faithful n rs w sink) :
    Faithful n rs { w with closed := true, chunks := [], buffered := 0 } sink where
  numStats := h.numStats
  buffered := rfl
  boundary := h.boundary
  below := by simp [drainThreshold]
  sent h' := by simp at h'
  drained _ := rfl

/-- Each step keeps what a writer over a sink in memory keeps, with the record it accepted. -/
theorem Faithful.step (h : Faithful n rs w sink) (c : Command) :
    Faithful n (rs ++ c.accepted ((run Outlet.memory c).apply (w, sink)).1)
      ((run Outlet.memory c).apply (w, sink)).2.1 ((run Outlet.memory c).apply (w, sink)).2.2 := by
  cases hr : c.record? with
  | some r =>
    cases hc : w.closed
    · by_cases hf : c.Fits n
      · rw [run_eq_push hr (h.numStats ▸ hf) hc,
          push_apply Outlet.memory_appends hc h.buffered (s := sink) trivial]
        split
        · simpa [Command.accepted, hr] using h.push_drains hc r
        · next hlow => simpa [Command.accepted, hr] using h.push_keeps hc r hlow
      · -- only a group can be of the wrong width
        cases c with
        | group g stats => simpa [h.laws.misfit g stats hf hc] using h
        | flush | close | abort => cases hr
        | _ => exact absurd trivial hf
    · rw [run_closed_record (by simp [hr]) hc sink]
      simpa using h
  | none =>
    cases hc : w.closed
    · cases c with
      | flush =>
        obtain ⟨w', hrun, -, hb, h0, hn⟩ :=
          flush_apply Outlet.memory_appends h.buffered (s := sink) trivial
        simpa [run, hrun, Command.accepted, hr] using h.emptied hc (hn.trans h.numStats) hb h0
      | close =>
        obtain ⟨w', hrun, -, hb, h0, hn⟩ :=
          close_apply Outlet.memory_appends hc h.buffered (s := sink) trivial
        simpa [run, hrun, Command.accepted, hr] using h.emptied hc (hn.trans h.numStats) hb h0
      | abort =>
        simpa [run, abort_apply Outlet.memory_appends hc (s := sink) trivial, Command.accepted, hr]
          using h.aborted
      | _ => cases hr
    · simpa [h.laws.idle c hr hc, Command.accepted, hr] using h

theorem faithful_create (n : Nat) : Faithful n [] (create n) [] where
  numStats := rfl
  buffered := rfl
  boundary := ⟨0, Nat.le_refl _, rfl⟩
  below := by simp [create, buffer, drainThreshold]
  sent _ := rfl
  drained h := by simp [create] at h

theorem Run.faithful {st : Writer × Bytes} (h : Run n st rs) : Faithful n rs st.1 st.2 := by
  induction h with
  | start => exact faithful_create n
  | step c _ ih => exact ih.step c

/-- Buffering does not show in what a writer over a sink in memory delivers: along every run, while
the writer is open, the sink followed by the buffer encodes the accepted records, the sink ends on a
record boundary and the buffer stays under the threshold. Every step from there acts as `Laws` says.
-/
theorem buffering_invisible {st : Writer × Bytes} (h : Run n st rs) :
    Faithful n rs st.1 st.2 ∧ Laws n st.1 st.2 :=
  ⟨h.faithful, h.faithful.laws⟩

/-- A term and a group are accepted, a group of the wrong width is refused, the writer is closed,
and a term after that is refused: the sink holds the two accepted records. -/
theorem buffering_invisible_after_close :
    let rs : List Record := [.intTerm 7 1, .group 0 [5]]
    let st : Writer × Bytes := ({ numStats := 1, closed := true }, rs.flatMap Record.encode)
    Run 1 st rs ∧ Faithful 1 rs st.1 st.2 ∧ Laws 1 st.1 st.2 := by
  intro rs st
  have h : Run 1 st rs := cast rfl <| Run.step (n := 1) (.intTerm 8 2) <| .step .close <|
    .step (.group 1 []) <| .step (.group 0 [5]) <| .step (.term (.int 7) 1) .start
  exact ⟨h, buffering_invisible h⟩

end Writer

end Wire

end GroupStats
