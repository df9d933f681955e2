import GroupStats.Proofs.Split.Routing

/-!
# Splitting into spill buffers

Without a budget the spill buffers take every write whole: writing to buffer `i` appends to it
and to no other buffer (`SpillArea.outputs_unbounded`). So a split into them routes as over any
outputs that take every write: splitting a cursor that moves as the views of a stream `v` into
`k` buffers leaves in buffer `i` the encoding of `v` with only the terms whose split index is
`i`, every field kept (`spill_spec`), and the readers of a split in memory are readers of those
encodings (`inMemory_eq`).
-/

namespace GroupStats

open Replay Wire

namespace Outlet

variable {σ : Type} {o : Outlet σ} {ok ok' : σ → Prop} {act : σ → Bytes → σ}

/-- A sink that takes every write in the states `ok` takes every write in fewer states, as long
as writes keep to them. -/
theorem Appends.restrict (h : o.Appends ok act) (hok : ∀ s, ok' s → ok s)
    (hkeep : ∀ s d, ok' s → ok' (act s d)) : o.Appends ok' act where
  write s d hs := h.write s d (hok s hs)
  flush s hs := h.flush s (hok s hs)
  close s hs := h.close s (hok s hs)
  nil := h.nil
  append := h.append
  keep := hkeep

end Outlet

namespace SpillArea

/-- No buffer is charged to the budget. -/
def Unbounded (a : SpillArea) : Prop := ∀ b ∈ a.buffers, b.bounded = false

/-- The area with `d` appended to buffer `i`. -/
def append (a : SpillArea) (i : Nat) (d : Bytes) : SpillArea :=
  { a with buffers := a.buffers.modify i fun b => { b with data := b.data ++ d } }

variable {a : SpillArea} {i j : Nat} {d : Bytes}

@[simp] theorem append_nil : a.append i [] = a := by
  simp only [append, List.append_nil]
  exact congrArg (fun bs => { a with buffers := bs }) (List.modify_id i a.buffers)

@[simp] theorem length_append : (a.append i d).buffers.length = a.buffers.length := by
  simp [append]

theorem data_append_self (hi : i < a.buffers.length) : (a.append i d).data i = a.data i ++ d := by
  simp [append, data, List.getElem?_eq_getElem hi]

theorem data_append_of_ne (h : j ≠ i) : (a.append i d).data j = a.data j := by
  simp [append, data, List.getElem?_modify_ne _ _ (Ne.symm h)]

theorem Unbounded.append (h : a.Unbounded) (i : Nat) (d : Bytes) : (a.append i d).Unbounded := by
  intro b hb
  obtain ⟨j, hj⟩ := List.mem_iff_getElem?.mp hb
  simp only [SpillArea.append, List.getElem?_modify] at hj
  cases hb' : a.buffers[j]? with
  | none => simp [hb'] at hj
  | some b' =>
    have hb'' := h b' (List.mem_of_getElem? hb')
    simp only [hb', Option.map_eq_map, Option.map_some, Option.some.injEq] at hj
    split at hj <;> (subst hj; exact hb'')

/-- Without a budget, the sink of buffer `i` appends every write to that buffer. -/
theorem outlet_appends (i : Nat) : (outlet i).Appends Unbounded (append · i) where
  write a d ha := by
    by_cases hd : d = []
    · subst hd
      simp [outlet, write]
    · -- a buffer that is there takes the bytes unbounded; past the last buffer nothing changes
      cases hb : a.buffers[i]? with
      | none =>
        have hlen : a.buffers.length ≤ i := List.getElem?_eq_none_iff.mp hb
        simp [outlet, write, hd, hb, append, List.modify_eq_self hlen]
      | some b =>
        simp [outlet, write, hd, hb, ha b (List.mem_of_getElem? hb), append,
          List.modify_eq_set_getElem?]
  flush _ _ := rfl
  close _ _ := rfl
  nil _ := append_nil
  append a x y := by
    simp only [append, List.modify_modify_eq]
    congr 2
    funext b
    simp [List.append_assoc]
  keep a d ha := ha.append i d


/-- Buffers without a budget, `k` of them, are outputs that take every write. -/
theorem outputs_unbounded (k : Nat) :
    Splitter.Outputs outlet k (fun a => a.Unbounded ∧ a.buffers.length = k)
      (fun i a d => a.append i d) data where
  appends i _ := (outlet_appends i).restrict (fun _ h => h.1)
    fun _ d h => ⟨h.1.append i d, by simpa using h.2⟩
  self i hi a d h := data_append_self (h.2 ▸ hi)
  other _ _ _ _ _ hj _ := data_append_of_ne hj

theorem create_unbounded (k : Nat) :
    (create k none).Unbounded ∧ (create k none).buffers.length = k := by
  refine ⟨fun b hb => ?_, by simp [create]⟩
  simp only [create, List.mem_replicate] at hb
  rw [hb.2]
  rfl

@[simp] theorem data_create (k i : Nat) : (create k none).data i = [] := by
  simp only [data, create, List.getElem?_replicate]
  split <;> rfl

end SpillArea

namespace Splitter

variable {τ σ : Type} {k : Nat} [Cursor τ] {S : τ → View → Prop} (hS : ViewSim S)
include hS

/-- Spilled without a budget into `k ≥ 1` buffers, a cursor that moves as the views of a stream
`v` whose stats have its width, with a budget above every count of `v`, leaves in buffer `i` the
encoding of `v` with only the terms whose split index is `i`. -/
theorem spill_spec (s : Splitter) {input : τ} {u : View} {v : Ftgs} (hk : 0 < k)
    (hu : S input u) (hv : u.fields = v) (hb : v.Bounded (Cursor.budget input))
    (hn : ∀ F ∈ v, ∀ t ∈ F.terms, ∀ g ∈ t.groups, g.stats.length = Cursor.numStats input) :
    ∃ f, s.spill input k none = (.ok (), f) ∧
      ∀ i < k, f.sinks.data i = encode (v.keepTerms fun t => s.index t k = i) := by
  obtain ⟨f, hrun, hdata, -⟩ := run_spec (SpillArea.outputs_unbounded k) hS s hk hu hv hb hn
    (sent_create input k (SpillArea.create_unbounded k))
  exact ⟨f, hrun, fun i hi => by simpa using hdata i hi⟩

/-- Split in memory without a budget into `k ≥ 1` parts, such a cursor gives `k` readers, the
`i`-th over the encoding of `v` with only the terms whose split index is `i`. -/
theorem inMemory_eq (s : Splitter) {input : τ} {u : View} {v : Ftgs} (hk : 0 < k)
    (hu : S input u) (hv : u.fields = v) (hb : v.Bounded (Cursor.budget input))
    (hn : ∀ F ∈ v, ∀ t ∈ F.terms, ∀ g ∈ t.groups, g.stats.length = Cursor.numStats input) :
    s.inMemory input k none = .ok ((List.range k).map fun i =>
      Reader.ofBytes (encode (v.keepTerms fun t => s.index t k = i)) (Cursor.numStats input)
        (Cursor.numGroups input)) := by
  obtain ⟨f, hf, hdata⟩ := spill_spec hS s hk hu hv hb hn
  simp only [inMemory, hf, Step.map_ok]
  congr 1
  exact List.map_congr_left fun i hi => by rw [hdata i (List.mem_range.mp hi)]

end Splitter

end GroupStats
