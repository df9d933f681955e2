import GroupStats.Split.Splitter
import GroupStats.Proofs.Wire.Buffering
import GroupStats.Proofs.Wire.Reader
import GroupStats.Proofs.Stream.Simulation
import GroupStats.Proofs.Merge.Laws

/-!
# How a split routes its input

A split sends every field switch of its input to every output, and each term with its groups to
the one output its split index names. Outputs that take every write whole are described only
through what a view of their shared state shows of each of them (`Outputs`): a write to output
`i` adds its bytes to what output `i` shows and to no other. Main statements: split over such
outputs, a cursor that moves as the views of a stream `v` succeeds, leaves output `i` showing the
encoding of `v` with only the terms whose split index is `i`, every writer closed and drained,
and the input closed (`run_spec`). With no output the split fails at once and closes the input
(`run_no_outputs`). When routing fails, whatever the outputs, every writer is aborted, the sink of
each output is closed once, in order, the input is closed, and the failure is reported, a spill
write limit as exceeded capacity (`run_routing_fails`).

The routing loops are followed level by level as the input's views move, one lemma per loop.
Each keeps the invariant `Sent`: what output `i` shows followed by what writer `i` still buffers
is what output `i` has been sent so far. Whatever the outputs answer, routing never closes a
writer (`routeFields_keeps_closed`), so on failure every writer is still open to be aborted.
-/

namespace GroupStats

open Replay Wire

namespace Wire

@[simp] theorem encode_nil : encode [] = [] := rfl

/-- The bytes of a stream: its first field's record, then its terms with their groups, then the
rest of the stream. -/
theorem encode_cons (f : FieldBlock) (v : Ftgs) :
    encode (f :: v) = (Record.field f.field).encode ++ (termRecords f.terms).flatMap Record.encode ++
      encode v := by
  simp [encode, records_eq, List.append_assoc]

namespace Writer

variable {σ : Type} {o : Outlet σ}

/-- Writing records never closes or opens a writer, whatever the sink answers. -/
theorem drain_keeps_closed : Step.Preserves (fun p : Writer × σ => p.1.closed) (drain o) := by
  rintro ⟨w, s⟩
  by_cases h0 : w.buffered = 0
  · simp [drain, h0]
  · simp [drain, h0, toSink]

theorem push_keeps_closed (r : Record) :
    Step.Preserves (fun p : Writer × σ => p.1.closed) (push o r) := by
  rintro ⟨w, s⟩
  cases hc : w.closed
  · by_cases hfull : drainThreshold ≤ w.buffered + r.encode.length
    · have := drain_keeps_closed (o := o)
        ({ w with chunks := r.encode :: w.chunks, buffered := w.buffered + r.encode.length }, s)
      simp only [push, checkOpen, Step.apply_bind, Step.apply_get, hc, Step.apply_modify]
      simpa [hfull, hc] using this
    · simp [push, checkOpen, hc, hfull]
  · simp [push, checkOpen, hc]

theorem writeGroup_keeps_closed (g : GroupId) (stats : List Int64) :
    Step.Preserves (fun p : Writer × σ => p.1.closed) (writeGroup o g stats) := by
  rintro ⟨w, s⟩
  cases hc : w.closed
  · by_cases hn : stats.length = w.numStats
    · simp only [writeGroup, checkOpen, Step.apply_bind, Step.apply_get, hc, hn]
      simpa [hc] using push_keeps_closed (o := o) (.group g stats) (w, s)
    · simp [writeGroup, checkOpen, hc, hn]
  · simp [writeGroup, checkOpen, hc]

/-- Aborting an open writer drops its buffer and closes it, and ends its sink once. -/
theorem abort_open {w : Writer} (hc : w.closed = false) (s : σ) :
    (abort o).apply (w, s) =
      ((o.close.apply s).1, ({ w with closed := true, chunks := [], buffered := 0 },
        (o.close.apply s).2)) := by
  simp [abort, hc, toSink]

end Writer

end Wire

namespace Splitter

variable {τ σ : Type} {k n : Nat}

/-- A step of writer `i` runs on that writer and the sinks and puts the writer back. -/
theorem onWriter_apply {f : Fanout τ σ} {i : Nat} {w : Writer} (hw : f.writers[i]? = some w)
    {x : Step (Writer × σ) Unit} {r : Except Error Unit} {w' : Writer} {s' : σ}
    (hx : x.apply (w, f.sinks) = (r, (w', s'))) :
    (onWriter i x).apply f = (r, { f with writers := f.writers.set i w', sinks := s' }) := by
  simp [onWriter, hw, hx]

@[simp] theorem onInput_apply {α : Type} (x : Step τ α) (f : Fanout τ σ) :
    (onInput x).apply f = ((x.apply f.input).1, { f with input := (x.apply f.input).2 }) := rfl

/-- No outcome of a list of successes is a failure. -/
theorem firstFailure_ok {α : Type} (xs : List α) :
    firstFailure (xs.map fun _ => (.ok () : Except Error Unit)) = none := by
  induction xs with
  | nil => rfl
  | cons x xs ih => simpa [firstFailure] using ih

/-- What holds of the element at each index of a list holds of every element. -/
theorem forall_mem_of_range {α : Type} {l : List α} {p : α → Prop}
    (h : ∀ i ∈ List.range l.length, ∃ a, l[i]? = some a ∧ p a) : ∀ a ∈ l, p a := by
  intro a ha
  obtain ⟨i, hi, rfl⟩ := List.getElem_of_mem ha
  obtain ⟨b, hb, hp⟩ := h i (List.mem_range.mpr hi)
  rw [List.getElem?_eq_getElem hi] at hb
  exact (Option.some.inj hb) ▸ hp

variable (outlet : Nat → Outlet σ)

/-! ### Routing leaves every writer open -/

/-- Which writers of a split are closed. -/
def closedWriters (f : Fanout τ σ) : List Bool := f.writers.map Writer.closed

theorem onWriter_keeps_closed {i : Nat} {x : Step (Writer × σ) Unit}
    (hx : Step.Preserves (fun p : Writer × σ => p.1.closed) x) :
    Step.Preserves closedWriters (onWriter i x : Step (Fanout τ σ) Unit) := by
  intro f
  cases hw : f.writers[i]? with
  | none => simp [onWriter, hw]
  | some w =>
    have hkeep := hx (w, f.sinks)
    rcases hxa : x.apply (w, f.sinks) with ⟨r, w', s'⟩
    rw [hxa] at hkeep
    have hi : i < f.writers.length := (List.getElem?_eq_some_iff.mp hw).1
    have hwi : f.writers[i] = w := (List.getElem?_eq_some_iff.mp hw).2
    have hi' : i < (f.writers.map Writer.closed).length := by simpa using hi
    have hclosed : w'.closed = (f.writers.map Writer.closed)[i] := by simpa [hwi] using hkeep
    simp only [closedWriters, onWriter_apply hw hxa, List.map_set, hclosed]
    exact List.set_getElem_self _

theorem onInput_keeps_closed {α : Type} (x : Step τ α) :
    Step.Preserves closedWriters (onInput x : Step (Fanout τ σ) α) := fun _ => rfl

theorem broadcast_keeps_closed (fld : Field) (is : List Nat) :
    Step.Preserves closedWriters (forIn is PUnit.unit fun i _ => do
      onWriter i (Writer.switchField (outlet i) fld)
      pure (ForInStep.yield PUnit.unit) : Step (Fanout τ σ) PUnit) := by
  induction is with
  | nil => exact Step.Preserves.pure' _
  | cons i is ih =>
    simp only [List.forIn_cons]
    refine Step.Preserves.bind' (Step.Preserves.bind' (onWriter_keeps_closed
      (Writer.push_keeps_closed _)) fun _ => Step.Preserves.pure' _) fun r => ?_
    rcases r with ⟨⟨⟩⟩ | ⟨⟨⟩⟩
    exacts [Step.Preserves.pure' _, ih]

section Routing

variable [Cursor τ]

theorem copyGroups_keeps_closed (i fuel : Nat) :
    Step.Preserves closedWriters (copyGroups outlet i fuel : Step (Fanout τ σ) Unit) := by
  induction fuel with
  | zero => exact Step.Preserves.pure' _
  | succ fuel ih =>
    exact Step.Preserves.bind' (onInput_keeps_closed _) fun _ =>
      Step.Preserves.ite' (Step.Preserves.bind' Step.Preserves.get' fun _ =>
        Step.Preserves.bind' (onWriter_keeps_closed (Writer.writeGroup_keeps_closed _ _))
          fun _ => ih) (Step.Preserves.pure' _)

theorem routeTerms_keeps_closed (s : Splitter) (k fuel m : Nat) :
    Step.Preserves closedWriters (routeTerms outlet s k fuel m : Step (Fanout τ σ) Unit) := by
  induction m with
  | zero => exact Step.Preserves.pure' _
  | succ m ih =>
    exact Step.Preserves.bind' (onInput_keeps_closed _) fun _ =>
      Step.Preserves.ite' (Step.Preserves.bind' Step.Preserves.get' fun _ =>
        Step.Preserves.bind' (Step.Preserves.bind' Step.Preserves.get' fun _ =>
          Step.Preserves.bind' (onWriter_keeps_closed (Writer.push_keeps_closed _)) fun _ =>
            copyGroups_keeps_closed outlet _ fuel) fun _ => ih) (Step.Preserves.pure' _)

/-- Routing never closes a writer, whether it succeeds or fails. -/
theorem routeFields_keeps_closed (s : Splitter) (k fuel m : Nat) :
    Step.Preserves closedWriters (routeFields outlet s k fuel m : Step (Fanout τ σ) Unit) := by
  induction m with
  | zero => exact Step.Preserves.pure' _
  | succ m ih =>
    exact Step.Preserves.bind' (onInput_keeps_closed _) fun _ =>
      Step.Preserves.ite' (Step.Preserves.bind' Step.Preserves.get' fun _ =>
        Step.Preserves.bind' (broadcast_keeps_closed outlet _ _) fun _ =>
          Step.Preserves.bind' (routeTerms_keeps_closed outlet s k fuel fuel) fun _ => ih)
        (Step.Preserves.pure' _)

end Routing

/-! ### Outputs that take every write -/

/-- Outputs `outlet i`, `i < k`, over one shared state, each taking every write whole in the
states `ok`: a write to output `i` adds its bytes to what `view` shows of output `i` and leaves
what it shows of every other output. -/
structure Outputs (k : Nat) (ok : σ → Prop) (act : Nat → σ → Bytes → σ) (view : σ → Nat → Bytes) :
    Prop where
  appends : ∀ i < k, (outlet i).Appends ok (act i)
  self : ∀ i < k, ∀ s d, ok s → view (act i s d) i = view s i ++ d
  other : ∀ i < k, ∀ j s d, j ≠ i → ok s → view (act i s d) j = view s j

variable {outlet} {ok : σ → Prop} {act : Nat → σ → Bytes → σ} {view : σ → Nat → Bytes}

/-- A split into `k` outputs whose writers are ready for groups of `n` stats, which has sent
output `i` the bytes `out i`: what the output shows followed by what writer `i` still buffers. -/
structure Sent (ok : σ → Prop) (view : σ → Nat → Bytes) (k n : Nat) (f : Fanout τ σ)
    (out : Nat → Bytes) : Prop where
  writers : f.writers.length = k
  sinks : ok f.sinks
  ready : ∀ w ∈ f.writers, Writer.Ready n w
  sent : ∀ i w, f.writers[i]? = some w → view f.sinks i ++ w.buffer = out i

variable {f : Fanout τ σ} {out : Nat → Bytes}

/-- Only what the outputs of the split were sent counts. -/
theorem Sent.congr (h : Sent ok view k n f out) {out' : Nat → Bytes}
    (he : ∀ j < k, out j = out' j) : Sent ok view k n f out' where
  writers := h.writers
  sinks := h.sinks
  ready := h.ready
  sent j w hw := by
    have hj : j < k := h.writers ▸ (List.getElem?_eq_some_iff.mp hw).1
    rw [← he j hj]
    exact h.sent j w hw

theorem Sent.exists_writer (h : Sent ok view k n f out) {i : Nat} (hi : i < k) :
    ∃ w, f.writers[i]? = some w ∧ Writer.Ready n w ∧ view f.sinks i ++ w.buffer = out i := by
  have hlt : i < f.writers.length := h.writers ▸ hi
  have hw : f.writers[i]? = some f.writers[i] := List.getElem?_eq_getElem hlt
  exact ⟨_, hw, h.ready _ (List.getElem_mem _), h.sent i _ hw⟩

/-- Moving the input leaves what the outputs were sent as it was. -/
theorem Sent.input (h : Sent ok view k n f out) (c : τ) : Sent ok view k n { f with input := c } out :=
  ⟨h.writers, h.sinks, h.ready, h.sent⟩

/-- A fresh split of `input` into `k` outputs has sent each output nothing beyond what it shows. -/
theorem sent_create [Cursor τ] (input : τ) (k : Nat) {sinks : σ} (hs : ok sinks) :
    Sent ok view k (Cursor.numStats input) (Fanout.create input k sinks) (view sinks) where
  writers := by simp [Fanout.create]
  sinks := hs
  ready w hw := by
    simp only [Fanout.create, List.mem_replicate] at hw
    rw [hw.2]
    exact ⟨rfl, rfl, rfl⟩
  sent i w hw := by
    simp only [Fanout.create, List.getElem?_replicate] at hw
    split at hw
    · cases hw
      simp [Fanout.create, Wire.Writer.create, Writer.buffer]
    · cases hw

section Send

variable (hO : Outputs outlet k ok act view)
include hO

/-- A step of writer `i` that sends `d` on to its output has sent output `i` the bytes `d` more,
and no other output anything. -/
theorem Sent.onWriter (h : Sent ok view k n f out) {i : Nat} (hi : i < k)
    {x : Step (Writer × σ) Unit} {d : Bytes} (hx : Writer.Sends ok (act i) n x d) :
    ∃ f', (onWriter i x).apply f = (.ok (), f') ∧ f'.input = f.input ∧
      Sent ok view k n f' (Function.update out i (out i ++ d)) := by
  obtain ⟨w, hw, hready, hsent⟩ := h.exists_writer hi
  obtain ⟨w', d', hrun, hbuf, hready'⟩ := hx w f.sinks hready h.sinks
  refine ⟨_, onWriter_apply hw hrun, rfl, ?_⟩
  refine
    { writers := by simp [h.writers]
      sinks := (hO.appends i hi).keep _ _ h.sinks
      ready := fun w₀ hw₀ => ?_
      sent := fun j w₀ hj => ?_ }
  · rcases List.mem_or_eq_of_mem_set hw₀ with hw₀ | rfl
    · exact h.ready w₀ hw₀
    · exact hready'
  · by_cases hji : j = i
    · subst hji
      have hw₀ : w₀ = w' := by
        rw [List.getElem?_set_self (h.writers ▸ hi)] at hj
        exact (Option.some.inj hj).symm
      subst hw₀
      simp only [hO.self j hi _ _ h.sinks, Function.update_self]
      rw [List.append_assoc, hbuf, ← List.append_assoc, hsent]
    · rw [List.getElem?_set_ne (Ne.symm hji)] at hj
      simp only [hO.other i hi j _ _ hji h.sinks, Function.update_of_ne hji]
      exact h.sent j w₀ hj

/-- Sending a field switch to the outputs `is` sends each of them the field's record. -/
theorem broadcast_spec (fld : Field) :
    ∀ (is : List Nat) (f : Fanout τ σ) (out : Nat → Bytes), is.Nodup → (∀ i ∈ is, i < k) →
      Sent ok view k n f out →
      ∃ f', (forIn is PUnit.unit fun i _ => do
          onWriter i (Writer.switchField (outlet i) fld)
          pure (ForInStep.yield PUnit.unit)).apply f = (.ok PUnit.unit, f') ∧ f'.input = f.input ∧
        Sent ok view k n f' fun j => if j ∈ is then out j ++ (Record.field fld).encode else out j := by
  intro is
  induction is with
  | nil =>
    intro f out _ _ h
    exact ⟨f, rfl, rfl, by simpa using h⟩
  | cons i is ih =>
    intro f out hnd hlt h
    rw [List.nodup_cons] at hnd
    have hi := hlt i (List.mem_cons_self ..)
    obtain ⟨f₁, hrun₁, hin₁, h₁⟩ := h.onWriter hO (x := Writer.switchField (outlet i) fld) hi
      (Writer.push_sends (hO.appends i hi) (.field fld))
    obtain ⟨f', hrun', hin', h'⟩ := ih f₁ _ hnd.2 (fun j hj => hlt j (List.mem_cons_of_mem _ hj)) h₁
    refine ⟨f', ?_, hin'.trans hin₁, h'.congr fun j _ => ?_⟩
    · simp only [List.forIn_cons, Step.apply_bind, hrun₁, Step.apply_pure, hrun']
    · -- the outputs are distinct, so each is sent the record once
      by_cases hj : j = i
      · subst hj
        simp [hnd.1]
      · simp [hj]

/-- Closing the writers `is`, each ready, drains what each still buffers into its output, which
then shows all it was sent; each of those writers ends closed and empty, and the other outputs
and writers stay as they were. -/
theorem closeAll_spec :
    ∀ (is : List Nat) (f : Fanout τ σ) (out : Nat → Bytes), is.Nodup → ok f.sinks →
      (∀ i ∈ is, i < k ∧ ∃ w, f.writers[i]? = some w ∧ Writer.Ready n w ∧
        view f.sinks i ++ w.buffer = out i) →
      ∃ f', (is.mapM fun i => Step.attempt (onWriter i (Writer.close (outlet i)))).apply f =
          (.ok (is.map fun _ => .ok ()), f') ∧ f'.input = f.input ∧ ok f'.sinks ∧
        f'.writers.length = f.writers.length ∧ (∀ i ∈ is, view f'.sinks i = out i ∧
          ∃ w, f'.writers[i]? = some w ∧ w.closed = true ∧ w.buffer = []) ∧
        ∀ j ∉ is, view f'.sinks j = view f.sinks j ∧ f'.writers[j]? = f.writers[j]? := by
  intro is
  induction is with
  | nil =>
    intro f out _ hs _
    exact ⟨f, rfl, rfl, hs, rfl, by simp, fun _ _ => ⟨rfl, rfl⟩⟩
  | cons i is ih =>
    intro f out hnd hs hrest
    rw [List.nodup_cons] at hnd
    obtain ⟨hi, w, hw, hready, hsent⟩ := hrest i (List.mem_cons_self ..)
    obtain ⟨w', hclose, hclosed, hempty, -, -⟩ :=
      Writer.close_apply (hO.appends i hi) hready.isOpen hready.buffered hs
    -- the later writers and their outputs are untouched by closing writer `i`
    have hother : ∀ j ∈ is, j ≠ i := fun j hj he => hnd.1 (he ▸ hj)
    have hs₁ : ok (act i f.sinks w.buffer) := (hO.appends i hi).keep _ _ hs
    obtain ⟨f', hrun', hin', hs', hlen', hdata', hframe'⟩ := ih { f with
        writers := f.writers.set i w'
        sinks := act i f.sinks w.buffer } out hnd.2 hs₁ (by
      intro j hj
      obtain ⟨hjk, hj'⟩ := hrest j (List.mem_cons_of_mem _ hj)
      refine ⟨hjk, ?_⟩
      simpa [List.getElem?_set_ne (Ne.symm (hother j hj)),
        hO.other i hi j _ _ (hother j hj) hs] using hj')
    refine ⟨f', ?_, hin', hs', by simpa using hlen', fun j hj => ?_, fun j hj => ?_⟩
    · simp only [List.mapM_cons, Step.apply_bind, Step.apply_attempt, onWriter_apply hw hclose,
        hrun', Step.apply_pure, List.map_cons]
    · rcases List.mem_cons.mp hj with rfl | hj
      · -- writer `j` was closed first; nothing later touches it or its output
        have hlt : j < f.writers.length := (List.getElem?_eq_some_iff.mp hw).1
        obtain ⟨hview, hwriter⟩ := hframe' j hnd.1
        refine ⟨?_, w', ?_, hclosed, hempty⟩
        · rw [hview, hO.self j hi _ _ hs, ← hsent]
        · rw [hwriter]
          simp [List.getElem?_set_self hlt]
      · exact hdata' j hj
    · simp only [List.mem_cons, not_or] at hj
      obtain ⟨hview, hwriter⟩ := hframe' j hj.2
      refine ⟨?_, ?_⟩
      · rw [hview]
        exact hO.other i hi j _ _ hj.1 hs
      · rw [hwriter]
        simp [List.getElem?_set_ne (Ne.symm hj.1)]

end Send

/-! ### Routing the views of a stream -/

section Views

variable [Cursor τ] (hO : Outputs outlet k ok act view) {S : τ → View → Prop} (hS : ViewSim S)
include hO hS

section Copy

variable {i : Nat} (hi : i < k)
include hi

/-- Copying the groups left in a term sends output `i` their records, and leaves the input's
view past them. -/
theorem copyGroups_spec :
    ∀ (gs : List GroupRow) (fuel : Nat) (f : Fanout τ σ) (u : View) (out : Nat → Bytes),
      S f.input u → u.groups = gs → gs.length < fuel → (∀ g ∈ gs, g.stats.length = n) →
      Sent ok view k n f out →
      ∃ f', (copyGroups outlet i fuel).apply f = (.ok (), f') ∧
        S f'.input { u with group? := none, groups := [] } ∧
        Sent ok view k n f'
          (Function.update out i (out i ++ (groupRecords gs).flatMap Record.encode)) := by
  intro gs
  induction gs with
  | nil =>
    rintro (_ | fuel) f u out hu hgs hlen - h
    · omega
    · obtain ⟨c', hc, hu'⟩ := hS.nextGroup_nil hu hgs
      refine ⟨{ f with input := c' }, by simp [copyGroups, hc], hu', ?_⟩
      simpa [Function.update_eq_self] using h.input c'
  | cons g gs ih =>
    rintro (_ | fuel) f u out hu hgs hlen hn h
    · omega
    · obtain ⟨c₁, hc₁, hu₁⟩ := hS.nextGroup_cons hu hgs
      obtain ⟨hgroup, hstats⟩ := hS.group hu₁ rfl
      obtain ⟨f₂, hrun₂, hin₂, h₂⟩ := (h.input c₁).onWriter hO hi
        (Writer.writeGroup_sends (g := g.group) (hO.appends i hi) (hn g (List.mem_cons_self ..)))
      obtain ⟨f', hrun', hu', h'⟩ := ih fuel f₂ _ _ (by rw [hin₂]; exact hu₁) rfl
        (by simp only [List.length_cons] at hlen; omega)
        (fun g' hg' => hn g' (List.mem_cons_of_mem _ hg')) h₂
      refine ⟨f', ?_, hu', ?_⟩
      · simp only [copyGroups, Step.apply_bind, onInput_apply, hc₁, if_true, Step.apply_get]
        simp only [hgroup, hstats, hrun₂, hrun']
      · simpa [Function.update_idem, groupRecords, List.append_assoc] using h'

/-- Copying the term the input stands on sends output `i` its record and its groups'. -/
theorem copyTerm_spec {fuel : Nat} {f : Fanout τ σ} {u : View} {t : TermBlock}
    (hu : S f.input u) (ht : u.term? = some t) (hgs : u.groups = t.groups)
    (hlen : t.groups.length < fuel) (hn : ∀ g ∈ t.groups, g.stats.length = n)
    (h : Sent ok view k n f out) :
    ∃ f', (copyTerm outlet i fuel).apply f = (.ok (), f') ∧
      S f'.input { u with group? := none, groups := [] } ∧
      Sent ok view k n f'
        (Function.update out i (out i ++ (termRecords [t]).flatMap Record.encode)) := by
  obtain ⟨hterm, hdf⟩ := hS.term hu ht
  obtain ⟨f₁, hrun₁, hin₁, h₁⟩ := h.onWriter hO hi
    (Writer.push_sends (hO.appends i hi) (.term t.term t.docFreq))
  obtain ⟨f', hrun', hu', h'⟩ :=
    copyGroups_spec hO hS hi t.groups fuel f₁ u _ (by rw [hin₁]; exact hu) hgs hlen hn h₁
  refine ⟨f', ?_, hu', ?_⟩
  · simp only [copyTerm, Step.apply_bind, Step.apply_get, hterm, hdf]
    simp only [Writer.switchTerm, hrun₁, hrun']
  · simpa [Function.update_idem, termRecords, List.append_assoc] using h'

end Copy

/-- Routing the terms left in a field sends each output the records of those terms whose split
index names it, and leaves the input's view past the field's terms. -/
theorem routeTerms_spec (s : Splitter) (hk : 0 < k) (fuel : Nat) {F : FieldBlock} :
    ∀ (ts : List TermBlock) (m : Nat) (f : Fanout τ σ) (u : View) (out : Nat → Bytes),
      S f.input u → u.field? = some F → u.terms = ts → ts.length < m →
      (∀ t ∈ ts, t.groups.length < fuel ∧ ∀ g ∈ t.groups, g.stats.length = n) →
      Sent ok view k n f out →
      ∃ f', (routeTerms outlet s k fuel m).apply f = (.ok (), f') ∧
        S f'.input { u with term? := none, group? := none, groups := [], terms := [] } ∧
        Sent ok view k n f' fun j => out j ++
          (termRecords (ts.filter fun t => s.index t.term k = j)).flatMap Record.encode := by
  intro ts
  induction ts with
  | nil =>
    rintro (_ | m) f u out hu - hts hlen - h
    · omega
    · obtain ⟨c', hc, hu'⟩ := hS.nextTerm_nil hu hts
      exact ⟨{ f with input := c' }, by simp [routeTerms, hc], hu', by simpa using h.input c'⟩
  | cons t ts ih =>
    rintro (_ | m) f u out hu hF hts hlen hfit h
    · omega
    · obtain ⟨c₁, hc₁, hu₁⟩ := hS.nextTerm_cons hu hF hts
      obtain ⟨hterm, -⟩ := hS.term hu₁ rfl
      obtain ⟨hgroups, hstats⟩ := hfit t (List.mem_cons_self ..)
      have hidx : s.index t.term k < k := Split.index_lt s.prime t.term hk
      obtain ⟨f₂, hrun₂, hu₂, h₂⟩ := copyTerm_spec hO hS hidx
        (f := { f with input := c₁ }) hu₁ rfl rfl hgroups hstats (h.input c₁)
      obtain ⟨f', hrun', hu', h'⟩ := ih m f₂ _ _ hu₂ hF rfl
        (by simp only [List.length_cons] at hlen; omega)
        (fun t' ht' => hfit t' (List.mem_cons_of_mem _ ht')) h₂
      refine ⟨f', ?_, hu', h'.congr fun j _ => ?_⟩
      · simp only [routeTerms, Step.apply_bind, onInput_apply, hc₁, if_true, Step.apply_get]
        simp only [hterm, hrun₂, hrun']
      · -- the term goes to its own output only
        by_cases hj : s.index t.term k = j
        · subst hj
          simp [termRecords, List.append_assoc]
        · simp [hj, Function.update_of_ne (Ne.symm hj)]

/-- Routing the fields left in the stream sends each output every field, with the terms of it
whose split index names that output, and leaves the input's view at the end of the stream. -/
theorem routeFields_spec (s : Splitter) (hk : 0 < k) (fuel : Nat) :
    ∀ (v : Ftgs) (m : Nat) (f : Fanout τ σ) (u : View) (out : Nat → Bytes),
      S f.input u → u.fields = v → v.length < m →
      (∀ F ∈ v, F.terms.length < fuel ∧
        ∀ t ∈ F.terms, t.groups.length < fuel ∧ ∀ g ∈ t.groups, g.stats.length = n) →
      Sent ok view k n f out →
      ∃ f', (routeFields outlet s k fuel m).apply f = (.ok (), f') ∧
        S f'.input ⟨none, none, none, [], [], []⟩ ∧
        Sent ok view k n f' fun j => out j ++ encode (v.keepTerms fun t => s.index t k = j) := by
  intro v
  induction v with
  | nil =>
    rintro (_ | m) f u out hu hv hlen - h
    · omega
    · obtain ⟨c', hc, hu'⟩ := hS.nextField_nil hu hv
      exact ⟨{ f with input := c' }, by simp [routeFields, hc], hu', by simpa using h.input c'⟩
  | cons F v ih =>
    rintro (_ | m) f u out hu hv hlen hfit h
    · omega
    · obtain ⟨c₁, hc₁, hu₁⟩ := hS.nextField_cons hu hv
      have hfield := hS.field hu₁ rfl
      obtain ⟨hterms, hgroups⟩ := hfit F (List.mem_cons_self ..)
      obtain ⟨f₂, hrun₂, hin₂, h₂⟩ := broadcast_spec hO F.field (List.range k)
        { f with input := c₁ } out List.nodup_range (fun i hi => List.mem_range.mp hi) (h.input c₁)
      obtain ⟨f₃, hrun₃, hu₃, h₃⟩ := routeTerms_spec hO hS s hk fuel F.terms fuel f₂ _ _
        (by rw [hin₂]; exact hu₁) rfl rfl hterms hgroups h₂
      obtain ⟨f', hrun', hu', h'⟩ := ih m f₃ _ _ hu₃ rfl
        (by simp only [List.length_cons] at hlen; omega)
        (fun F' hF' => hfit F' (List.mem_cons_of_mem _ hF')) h₃
      refine ⟨f', ?_, hu', h'.congr fun j hj => ?_⟩
      · simp only [routeFields, Step.apply_bind, onInput_apply, hc₁, if_true, Step.apply_get]
        simp only [hfield, hrun₂, hrun₃, hrun']
      · simp [List.mem_range.mpr hj, Ftgs.keepTerms_cons, encode_cons, List.append_assoc]

/-- The two phases of a clean split: routing a cursor that moves as the views of a stream `v`
succeeds, and closing the writers afterwards succeeds for each of them, leaving in output `i`,
after what it was sent before, the encoding of `v` with only the terms whose split index is `i`,
every writer closed and drained, and the input at the end of the stream. -/
theorem route_then_close (s : Splitter) {u : View} {v : Ftgs} (hk : 0 < k)
    (hu : S f.input u) (hv : u.fields = v) (hb : v.Bounded (Cursor.budget f.input))
    (hn : ∀ F ∈ v, ∀ t ∈ F.terms, ∀ g ∈ t.groups, g.stats.length = n)
    (h : Sent ok view k n f out) :
    ∃ f₁ f₂, (routeFields outlet s k (Cursor.budget f.input + 1)
        (Cursor.budget f.input + 1)).apply f = (.ok (), f₁) ∧
      ((List.range k).mapM fun i => Step.attempt (onWriter i (Writer.close (outlet i)))).apply f₁ =
        (.ok ((List.range k).map fun _ => .ok ()), f₂) ∧
      ok f₂.sinks ∧
      (∀ i < k, view f₂.sinks i = out i ++ encode (v.keepTerms fun t => s.index t k = i)) ∧
      f₂.writers.length = k ∧ (∀ w ∈ f₂.writers, w.closed = true ∧ w.buffer = []) ∧
      S f₂.input ⟨none, none, none, [], [], []⟩ := by
  have hfit : ∀ F ∈ v, F.terms.length < Cursor.budget f.input + 1 ∧ ∀ t ∈ F.terms,
      t.groups.length < Cursor.budget f.input + 1 ∧ ∀ g ∈ t.groups, g.stats.length = n := by
    intro F hF
    refine ⟨Nat.lt_succ_of_le (hb.2 F hF).1, fun t ht => ⟨?_, hn F hF t ht⟩⟩
    exact Nat.lt_succ_of_le ((hb.2 F hF).2 t ht)
  obtain ⟨f₁, hrun₁, hu₁, h₁⟩ := routeFields_spec hO hS s hk (Cursor.budget f.input + 1) v
    (Cursor.budget f.input + 1) f u _ hu hv (Nat.lt_succ_of_le hb.1) hfit h
  obtain ⟨f₂, hrun₂, hin₂, hs₂, hlen₂, hclosed, -⟩ := closeAll_spec hO (List.range k) f₁ _
    List.nodup_range h₁.sinks fun i hi => by
      have hik := List.mem_range.mp hi
      exact ⟨hik, h₁.exists_writer hik⟩
  refine ⟨f₁, f₂, hrun₁, hrun₂, hs₂, fun i hi => ?_, hlen₂.trans h₁.writers, ?_, hin₂ ▸ hu₁⟩
  · simpa using (hclosed i (List.mem_range.mpr hi)).1
  · exact forall_mem_of_range (by rw [hlen₂, h₁.writers]; exact fun i hi => (hclosed i hi).2)

/-- Split into `k ≥ 1` outputs, a cursor that moves as the views of a stream `v` whose stats have
the writers' width, with fuel above every count of `v`, succeeds: output `i` shows, after what it
was sent before, the encoding of `v` with only the terms whose split index is `i`; every writer
ends closed and drained, and the input is closed at the end of the stream. -/
theorem run_spec (s : Splitter) {u : View} {v : Ftgs} (hk : 0 < k)
    (hu : S f.input u) (hv : u.fields = v) (hb : v.Bounded (Cursor.budget f.input))
    (hn : ∀ F ∈ v, ∀ t ∈ F.terms, ∀ g ∈ t.groups, g.stats.length = n)
    (h : Sent ok view k n f out) :
    ∃ f', (run outlet s).apply f = (.ok (), f') ∧
      (∀ i < k, view f'.sinks i = out i ++ encode (v.keepTerms fun t => s.index t k = i)) ∧
      (∀ w ∈ f'.writers, w.closed = true ∧ w.buffer = []) ∧
      ∃ c, S c ⟨none, none, none, [], [], []⟩ ∧ f'.input = (Cursor.close.apply c).2 := by
  obtain ⟨f₁, f₂, hrun₁, hrun₂, -, hview, -, hclosed, hu₂⟩ :=
    route_then_close hO hS s hk hu hv hb hn h
  have hk0 : k ≠ 0 := Nat.pos_iff_ne_zero.mp hk
  refine ⟨{ f₂ with input := (Cursor.close.apply f₂.input).2 }, ?_, hview, hclosed,
    f₂.input, hu₂, rfl⟩
  simp only [run, Step.apply_bind, Step.apply_get, h.writers, hk0, if_false, Step.apply_attempt,
    hrun₁, hrun₂, Step.apply_pure, firstFailure_ok, onInput_apply]

end Views

/-! ### Splits that stop early -/

section Abort

variable (outlet)

/-- Aborting the writers `is`, all open, closes each with its buffer dropped and ends the sink of
each once, in order, whatever the sinks answer. -/
theorem abortAll_spec :
    ∀ (is : List Nat) (f : Fanout τ σ), is.Nodup →
      (∀ i ∈ is, ∃ w, f.writers[i]? = some w ∧ w.closed = false) →
      ∃ f', (forIn is PUnit.unit fun i _ => do
          let _ ← Step.attempt (onWriter i (Writer.abort (outlet i)))
          pure (ForInStep.yield PUnit.unit)).apply f = (.ok PUnit.unit, f') ∧ f'.input = f.input ∧
        f'.sinks = is.foldl (fun s i => ((outlet i).close.apply s).2) f.sinks ∧
        f'.writers.length = f.writers.length ∧
        (∀ i ∈ is, ∃ w, f'.writers[i]? = some w ∧ w.closed = true ∧ w.buffer = []) ∧
        ∀ j ∉ is, f'.writers[j]? = f.writers[j]? := by
  intro is
  induction is with
  | nil =>
    intro f _ _
    exact ⟨f, rfl, rfl, rfl, rfl, by simp, fun _ _ => rfl⟩
  | cons i is ih =>
    intro f hnd hopen
    rw [List.nodup_cons] at hnd
    obtain ⟨w, hw, hc⟩ := hopen i (List.mem_cons_self ..)
    have hother : ∀ j ∈ is, j ≠ i := fun j hj he => hnd.1 (he ▸ hj)
    obtain ⟨f', hrun', hin', hsinks', hlen', hclosed', hframe'⟩ := ih { f with
        writers := f.writers.set i { w with closed := true, chunks := [], buffered := 0 }
        sinks := ((outlet i).close.apply f.sinks).2 } hnd.2 (by
      intro j hj
      simpa [List.getElem?_set_ne (Ne.symm (hother j hj))] using
        hopen j (List.mem_cons_of_mem _ hj))
    refine ⟨f', ?_, hin', hsinks', by simpa using hlen', fun j hj => ?_, fun j hj => ?_⟩
    · simp only [List.forIn_cons, Step.apply_bind, Step.apply_attempt,
        onWriter_apply hw (Writer.abort_open hc f.sinks), Step.apply_pure, hrun']
    · rcases List.mem_cons.mp hj with rfl | hj
      · have hlt : j < f.writers.length := (List.getElem?_eq_some_iff.mp hw).1
        refine ⟨{ w with closed := true, chunks := [], buffered := 0 }, ?_, rfl, rfl⟩
        rw [hframe' j hnd.1]
        simp [List.getElem?_set_self hlt]
      · exact hclosed' j hj
    · simp only [List.mem_cons, not_or] at hj
      rw [hframe' j hj.2]
      simp [List.getElem?_set_ne (Ne.symm hj.1)]

end Abort

section Early

variable [Cursor τ] (outlet)

/-- With no output a split fails at once, after closing its input. -/
theorem run_no_outputs (s : Splitter) {f : Fanout τ σ} (hk : f.writers = []) :
    (run outlet s).apply f =
      (.error (.invalidArgument .noSplitOutputs), { f with input := (Cursor.close.apply f.input).2 }) := by
  simp [run, hk]

/-- When routing fails, the split aborts every writer, ends the sink of each output once, in
order, closes its input, and fails with the routing failure, a spill write limit reported as
exceeded capacity. -/
theorem run_routing_fails (s : Splitter) {f f₁ : Fanout τ σ} {e : Error} (hk : f.writers ≠ [])
    (hopen : ∀ w ∈ f.writers, w.closed = false)
    (hroute : (routeFields outlet s f.writers.length (Cursor.budget f.input + 1)
      (Cursor.budget f.input + 1)).apply f = (.error e, f₁)) :
    ∃ f₂, (run outlet s).apply f = (.error e.classify, f₂) ∧
      f₂.input = (Cursor.close.apply f₁.input).2 ∧ f₂.writers.length = f.writers.length ∧
      (∀ w ∈ f₂.writers, w.closed = true ∧ w.buffer = []) ∧
      f₂.sinks = (List.range f.writers.length).foldl
        (fun s i => ((outlet i).close.apply s).2) f₁.sinks := by
  -- routing left every writer open
  have hkeep := routeFields_keeps_closed outlet s f.writers.length
    (Cursor.budget f.input + 1) (Cursor.budget f.input + 1) f
  rw [hroute] at hkeep
  have hlen : f₁.writers.length = f.writers.length := by
    simpa [closedWriters] using congrArg List.length hkeep
  have hopen₁ : ∀ i ∈ List.range f.writers.length,
      ∃ w, f₁.writers[i]? = some w ∧ w.closed = false := by
    intro i hi
    have hi' : i < f.writers.length := List.mem_range.mp hi
    have hi₁ : i < f₁.writers.length := hlen ▸ hi'
    refine ⟨f₁.writers[i], List.getElem?_eq_getElem hi₁, ?_⟩
    have h := congrArg (fun l => l[i]?) hkeep
    simp only [closedWriters, List.getElem?_map, List.getElem?_eq_getElem hi₁,
      List.getElem?_eq_getElem hi', Option.map_some, Option.some.injEq] at h
    exact h.trans (hopen _ (List.getElem_mem _))
  obtain ⟨f₂, hrun₂, hin₂, hsinks₂, hlen₂, hclosed₂, -⟩ :=
    abortAll_spec outlet (List.range f.writers.length) f₁ List.nodup_range hopen₁
  have hk0 : f.writers.length ≠ 0 := by simpa using hk
  refine ⟨{ f₂ with input := (Cursor.close.apply f₂.input).2 }, ?_, by rw [hin₂],
    hlen₂.trans hlen, forall_mem_of_range (by rw [hlen₂, hlen]; exact hclosed₂), hsinks₂⟩
  simp only [run, Step.apply_bind, Step.apply_get, hk0, if_false, Step.apply_attempt, hroute,
    hrun₂, Step.apply_pure, onInput_apply, Step.apply_throw]

end Early

/-! ### Splitting -/

variable [Cursor τ] (outlet)

/-- Splitting routes every term to its one output: over `k ≥ 1` outputs taking every write, output
`j` shows the stream with every field and only the terms of split index `j`, and every writer and
the input end closed. With no output the split fails as an invalid argument; when routing fails
every writer is aborted, each sink and the input closed once, and the failure reported. -/
theorem split_routes_each_term (s : Splitter) (input : τ) (k : Nat) (sinks : σ) :
    (∀ (S : τ → View → Prop) (ok : σ → Prop) (act : Nat → σ → Bytes → σ)
        (view : σ → Nat → Bytes) (u : View) (v : Ftgs),
      ViewSim S → Outputs outlet k ok act view → ok sinks → 0 < k → S input u → u.fields = v →
      v.Bounded (Cursor.budget input) →
      (∀ F ∈ v, ∀ t ∈ F.terms, ∀ g ∈ t.groups, g.stats.length = Cursor.numStats input) →
      ∃ f', (run outlet s).apply (Fanout.create input k sinks) = (.ok (), f') ∧
        (∀ j < k, view f'.sinks j = view sinks j ++ encode (v.keepTerms fun t => s.index t k = j)) ∧
        (∀ w ∈ f'.writers, w.closed = true ∧ w.buffer = []) ∧
        ∃ c, S c ⟨none, none, none, [], [], []⟩ ∧ f'.input = (Cursor.close.apply c).2) ∧
    (k = 0 → (run outlet s).apply (Fanout.create input k sinks) =
      (.error (.invalidArgument .noSplitOutputs),
        { Fanout.create input k sinks with input := (Cursor.close.apply input).2 })) ∧
    ∀ (e : Error) (f₁ : Fanout τ σ), 0 < k →
      (routeFields outlet s k (Cursor.budget input + 1) (Cursor.budget input + 1)).apply
        (Fanout.create input k sinks) = (.error e, f₁) →
      ∃ f₂, (run outlet s).apply (Fanout.create input k sinks) = (.error e.classify, f₂) ∧
        f₂.input = (Cursor.close.apply f₁.input).2 ∧ f₂.writers.length = k ∧
        (∀ w ∈ f₂.writers, w.closed = true ∧ w.buffer = []) ∧
        f₂.sinks = (List.range k).foldl (fun s i => ((outlet i).close.apply s).2) f₁.sinks := by
  have hopen : ∀ w ∈ (Fanout.create input k sinks).writers, w.closed = false := by
    intro w hw
    simp only [Fanout.create, List.mem_replicate] at hw
    rw [hw.2]
    rfl
  have hlen : (Fanout.create input k sinks).writers.length = k := by simp [Fanout.create]
  refine ⟨fun S ok act view u v hS hO hs hk hu hv hb hn => ?_, fun hk => ?_,
    fun e f₁ hk hroute => ?_⟩
  · exact run_spec hO hS s hk hu hv hb hn (sent_create input k hs)
  · exact run_no_outputs outlet s (by simp [Fanout.create, hk])
  · have hne : (Fanout.create input k sinks).writers ≠ [] := by
      simpa [Fanout.create] using Nat.pos_iff_ne_zero.mp hk
    simpa only [hlen] using run_routing_fails outlet s hne hopen (by rw [hlen]; exact hroute)

/-- A sink in memory is a family of one output. -/
theorem memory_outputs :
    Outputs (fun _ => Outlet.memory) 1 (fun _ => True) (fun _ => (· ++ ·))
      (fun s j => if j = 0 then s else []) where
  appends _ _ := Outlet.memory_appends
  self i hi s d _ := by simp [Nat.lt_one_iff.mp hi]
  other i hi j s d hj _ := by
    rw [Nat.lt_one_iff.mp hi] at hj
    simp [hj]

/-- A stream of one field split into one sink in memory: the sink ends holding its encoding. -/
theorem split_into_one_memory_sink :
    let v : Ftgs := [⟨⟨"f", .int⟩, [⟨.int 3, 1, [⟨1, [7]⟩]⟩]⟩]
    ∃ f', (run (fun _ => Outlet.memory) standard).apply
        (Fanout.create (Replay.ofBlocks v 1) 1 []) = (.ok (), f') ∧ f'.sinks = encode v := by
  intro v
  obtain ⟨f', hrun, hview, -⟩ := (split_routes_each_term (fun _ => Outlet.memory) standard
    (Replay.ofBlocks v 1) 1 []).1 (fun r w => r.view = w) (fun _ => True) (fun _ => (· ++ ·))
    (fun s j => if j = 0 then s else []) _ v viewSim_self memory_outputs trivial Nat.one_pos rfl
    (by simp [Replay.ofBlocks, Replay.view, v]) (Ftgs.bounded_size v) (by simp [v]; rfl)
  refine ⟨f', hrun, ?_⟩
  simpa [Splitter.index, Split.index, Split.indexInt, List.filter_cons, Nat.mod_one, v] using
    hview 0 Nat.one_pos

end Splitter

end GroupStats
