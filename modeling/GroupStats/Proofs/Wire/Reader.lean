import GroupStats.Proofs.Wire.Record
import GroupStats.Proofs.Stream.Simulation

/-!
# The reader walks what was written

A `Reader` over the encoding of a stream moves exactly as the replay of that stream, for
every sequence of advances, as long as the stream is one the reader accepts: names and byte
terms within the length limit, terms of their field's type, groups below the bound with the
reader's number of stats. Terms and groups may come in any order.

The reader reads one record ahead. Its state is described by what is left of the stream:
at rest, the bytes left encode some groups, then some terms, then some fields; ahead, it
holds back the record that starts what is left. `Reader.Tracks` says which of these matches
each position of the replay, and each advance keeps it.
-/

namespace GroupStats

namespace Wire

/-! ### What is left of a stream -/

/-- The records of some groups. -/
def groupRecords (gs : List GroupRow) : List Record := gs.map fun g => .group g.group g.stats

/-- The records of some terms, each followed by its groups. -/
def termRecords (ts : List TermBlock) : List Record :=
  ts.flatMap fun t => Record.term t.term t.docFreq :: groupRecords t.groups

/-- The records left after a position: the groups left in the term, the terms left in the
field, the fields left in the stream. -/
def remainder (gs : List GroupRow) (ts : List TermBlock) (fs : Ftgs) : List Record :=
  groupRecords gs ++ termRecords ts ++ records fs

@[simp] theorem groupRecords_nil : groupRecords [] = [] := rfl

@[simp] theorem termRecords_nil : termRecords [] = [] := rfl

theorem records_eq (v : Ftgs) : records v = v.flatMap fun f => .field f.field :: termRecords f.terms := by
  simp [records, termRecords, groupRecords]

@[simp] theorem remainder_group (g : GroupRow) (gs : List GroupRow) (ts : List TermBlock) (fs : Ftgs) :
    remainder (g :: gs) ts fs = .group g.group g.stats :: remainder gs ts fs := by
  simp [remainder, groupRecords]

@[simp] theorem remainder_term (t : TermBlock) (ts : List TermBlock) (fs : Ftgs) :
    remainder [] (t :: ts) fs = Record.term t.term t.docFreq :: remainder t.groups ts fs := by
  simp [remainder, termRecords]

@[simp] theorem remainder_field (f : FieldBlock) (fs : Ftgs) :
    remainder [] [] (f :: fs) = .field f.field :: remainder [] f.terms fs := by
  simp [remainder, records_eq]

@[simp] theorem remainder_nil : remainder [] [] [] = [] := rfl

theorem remainder_start (v : Ftgs) : remainder [] [] v = records v := by
  simp [remainder, groupRecords, termRecords]

@[simp] theorem length_termRecords_cons (t : TermBlock) (ts : List TermBlock) :
    (termRecords (t :: ts)).length = (termRecords ts).length + t.groups.length + 1 := by
  simp [termRecords, groupRecords]
  omega

/-- Every record takes at least one byte. -/
theorem length_le_flatMap_encode (rs : List Record) :
    rs.length ≤ (rs.flatMap Record.encode).length := by
  induction rs with
  | nil => simp
  | cons r rs ih =>
    have := List.length_pos_iff.mpr (Record.encode_ne_nil r)
    simp only [List.length_cons, List.flatMap_cons, List.length_append]
    omega

/-! ### Streams the reader accepts -/

/-- A term the reader accepts: an integer, or bytes within the length limit. -/
def Term.Short : Term → Prop
  | .int _ => True
  | .bytes b => b.length ≤ maxLength

instance (t : Term) : Decidable (Term.Short t) :=
  match t with
  | .int _ => isTrue trivial
  | .bytes b => inferInstanceAs (Decidable (b.length ≤ maxLength))

/-- Groups the reader accepts: below the bound, with `numStats` stats. -/
def GroupsFit (numStats : Nat) (numGroups : UInt32) (gs : List GroupRow) : Prop :=
  ∀ g ∈ gs, g.group < numGroups ∧ g.stats.length = numStats

/-- Terms the reader accepts in a field of type `ty`. -/
def TermsFit (numStats : Nat) (numGroups : UInt32) (ty : FieldType) (ts : List TermBlock) : Prop :=
  ∀ t ∈ ts, t.term.fieldType = ty ∧ Term.Short t.term ∧ GroupsFit numStats numGroups t.groups

/-- A stream the reader accepts: names within the length limit, and each field's terms
accepted in a field of its type. -/
def Fits (numStats : Nat) (numGroups : UInt32) (v : Ftgs) : Prop :=
  ∀ f ∈ v, (Bytes.ofString f.field.name).length ≤ maxLength ∧
    TermsFit numStats numGroups f.field.type f.terms

theorem GroupsFit.tail {ns : Nat} {ng : UInt32} {g : GroupRow} {gs : List GroupRow}
    (h : GroupsFit ns ng (g :: gs)) : GroupsFit ns ng gs := fun g' hg => h g' (by simp [hg])

theorem TermsFit.tail {ns : Nat} {ng : UInt32} {ty : FieldType} {t : TermBlock}
    {ts : List TermBlock} (h : TermsFit ns ng ty (t :: ts)) : TermsFit ns ng ty ts :=
  fun t' ht => h t' (by simp [ht])

theorem Fits.tail {ns : Nat} {ng : UInt32} {f : FieldBlock} {fs : Ftgs} (h : Fits ns ng (f :: fs)) :
    Fits ns ng fs := fun f' hf => h f' (by simp [hf])

/-- Every group of an accepted stream is below the bound. -/
theorem Fits.group_lt {ns : Nat} {ng : UInt32} {v : Ftgs} (h : Fits ns ng v) :
    ∀ f ∈ v, ∀ t ∈ f.terms, ∀ g ∈ t.groups, g.group < ng :=
  fun f hf t ht g hg => (((h f hf).2 t ht).2.2 g hg).1

/-- Every group of an accepted stream has `ns` stats. -/
theorem Fits.stats_length {ns : Nat} {ng : UInt32} {v : Ftgs} (h : Fits ns ng v) :
    ∀ f ∈ v, ∀ t ∈ f.terms, ∀ g ∈ t.groups, g.stats.length = ns :=
  fun f hf t ht g hg => (((h f hf).2 t ht).2.2 g hg).2

theorem Fits.drop {ns : Nat} {ng : UInt32} {v : Ftgs} (h : Fits ns ng v) (i : Nat) :
    Fits ns ng (v.drop i) := fun f hf => h f (List.mem_of_mem_drop hf)

theorem TermsFit.drop {ns : Nat} {ng : UInt32} {ty : FieldType} {ts : List TermBlock}
    (h : TermsFit ns ng ty ts) (j : Nat) : TermsFit ns ng ty (ts.drop j) :=
  fun t ht => h t (List.mem_of_mem_drop ht)

theorem GroupsFit.drop {ns : Nat} {ng : UInt32} {gs : List GroupRow} (h : GroupsFit ns ng gs)
    (k : Nat) : GroupsFit ns ng (gs.drop k) := fun g hg => h g (List.mem_of_mem_drop hg)

/-! ### Reading one record -/

/-- The kind of a record, as the reader reports it after reading it. -/
def Record.kind : Record → Pending
  | .field _ => .field
  | .intTerm _ _ | .bytesTerm _ _ => .term
  | .group _ _ => .none

namespace Reader

/-- Where a record read ahead goes: a field to the staged field, a term to the staged term,
a group straight to the current group. -/
def stage (c : Reader) : Record → Reader
  | .field f => { c with stagedField := f }
  | .intTerm t df => { c with stagedInt := t, stagedDocFreq := df }
  | .bytesTerm b df => { c with stagedBytes := b, stagedDocFreq := df }
  | .group g stats => { c with group := g, stats }

@[simp] theorem stage_pending (c : Reader) (r : Record) : (c.stage r).pending = c.pending := by
  cases r <;> rfl

@[simp] theorem stage_input (c : Reader) (r : Record) : (c.stage r).input = c.input := by
  cases r <;> rfl

@[simp] theorem stage_numStats (c : Reader) (r : Record) : (c.stage r).numStats = c.numStats := by
  cases r <;> rfl

@[simp] theorem stage_numGroups (c : Reader) (r : Record) :
    (c.stage r).numGroups = c.numGroups := by
  cases r <;> rfl

@[simp] theorem stage_field (c : Reader) (r : Record) : (c.stage r).field = c.field := by
  cases r <;> rfl

/-- Reading a record the reader accepts stages it and leaves the bytes after it. -/
theorem readNext_record {c : Reader} {r : Record} {rest : Bytes}
    (hin : c.input = .bytes (r.encode ++ rest))
    (hr : r.Readable c.stagedField c.numStats c.numGroups) :
    readNext.apply c = (.ok r.kind, ({ c with input := .bytes rest } : Reader).stage r) := by
  simp only [readNext, Step.apply_bind, Step.apply_get, hin, readRecord_encode hr]
  cases r <;> simp [Record.kind, stage]

/-- At the end of the input the reader reports the end and changes nothing. -/
theorem readNext_end {c : Reader} (hin : c.input = .bytes []) :
    readNext.apply c = (.ok .eof, c) := by
  simp only [readNext, Step.apply_bind, Step.apply_get, hin, readRecord_nil]
  simp [← hin]

theorem takePending_none {c : Reader} (hp : c.pending = .none) :
    takePending.apply c = readNext.apply c := by
  simp [takePending, hp]

theorem takePending_held {c : Reader} {p : Pending} (hp : c.pending = p) (hne : p ≠ .none) :
    takePending.apply c = (.ok p, { c with pending := .none }) := by
  cases p with
  | none => exact absurd rfl hne
  | _ => simp [takePending, hp]

@[simp] theorem hold_apply (c : Reader) (p : Pending) :
    (hold p).apply c = (.ok (), { c with pending := p }) := rfl

/-! ### Where the reader stands -/

/-- The staged term is `t`. -/
def Holds (c : Reader) (t : TermBlock) : Prop :=
  c.stagedDocFreq = t.docFreq ∧
    match t.term with
    | .int v => c.stagedInt = v
    | .bytes b => c.stagedBytes = b

/-- The reader has read nothing ahead; its staged field has type `ty`; the bytes left encode
the groups `gs`, the terms `ts` of a field of type `ty` and the fields `fs`, all of which it
accepts. -/
structure AtRest (c : Reader) (ty : FieldType) (gs : List GroupRow) (ts : List TermBlock)
    (fs : Ftgs) : Prop where
  pending : c.pending = .none
  staged : c.stagedField.type = ty
  input : c.input = .bytes ((remainder gs ts fs).flatMap Record.encode)
  groups : GroupsFit c.numStats c.numGroups gs
  terms : TermsFit c.numStats c.numGroups ty ts
  fields : Fits c.numStats c.numGroups fs

/-- The reader has read the record that starts the terms `ts` of a field of type `ty` and then
the fields `fs`, and holds it back: a term or a field in its staging slot, or the end. -/
def Ahead (c : Reader) (ty : FieldType) : List TermBlock → Ftgs → Prop
  | t :: ts, fs => c.pending = .term ∧ c.Holds t ∧ t.term.fieldType = ty ∧
      AtRest { c with pending := .none } ty t.groups ts fs
  | [], f :: fs => c.pending = .field ∧ c.stagedField = f.field ∧
      AtRest { c with pending := .none } f.field.type [] f.terms fs
  | [], [] => c.pending = .eof ∧ c.input = .bytes []

theorem readable_term {cur : Field} {ns : Nat} {ng : UInt32} {t : Term} (df : UInt64)
    (hty : t.fieldType = cur.type) (hs : Term.Short t) : (Record.term t df).Readable cur ns ng := by
  cases t with
  | int v => exact hty.symm
  | bytes b => exact ⟨hty.symm, hs⟩

variable {c : Reader} {ty : FieldType}

theorem AtRest.readNext_group {g : GroupRow} {gs : List GroupRow} {ts : List TermBlock} {fs : Ftgs}
    (h : c.AtRest ty (g :: gs) ts fs) :
    ∃ c', readNext.apply c = (.ok .none, c') ∧ c'.AtRest ty gs ts fs ∧
      c'.group = g.group ∧ c'.stats = g.stats ∧ c'.field = c.field ∧ c'.term = c.term ∧
      c'.docFreq = c.docFreq := by
  have hin : c.input = .bytes ((Record.group g.group g.stats).encode ++
      (remainder gs ts fs).flatMap Record.encode) := by
    rw [h.input, remainder_group, List.flatMap_cons]
  obtain ⟨hg, hs⟩ := h.groups g (by simp)
  refine ⟨_, readNext_record hin ⟨hg, hs⟩, ⟨h.pending, h.staged, rfl, h.groups.tail, h.terms,
    h.fields⟩, rfl, rfl, rfl, rfl, rfl⟩

theorem AtRest.readNext_term {t : TermBlock} {ts : List TermBlock} {fs : Ftgs}
    (h : c.AtRest ty [] (t :: ts) fs) :
    ∃ c', readNext.apply c = (.ok .term, c') ∧ c'.AtRest ty t.groups ts fs ∧ c'.Holds t ∧
      c'.field = c.field ∧ c'.term = c.term ∧ c'.docFreq = c.docFreq := by
  have hin : c.input = .bytes ((Record.term t.term t.docFreq).encode ++
      (remainder t.groups ts fs).flatMap Record.encode) := by
    rw [h.input, remainder_term, List.flatMap_cons]
  obtain ⟨hty, hshort, hgroups⟩ := h.terms t (by simp)
  have hr := readNext_record hin (readable_term t.docFreq (hty.trans h.staged.symm) hshort)
  cases hterm : t.term with
  | int v =>
    rw [hterm] at hr hty
    exact ⟨_, hr, ⟨h.pending, h.staged, rfl, hgroups, h.terms.tail, h.fields⟩,
      ⟨rfl, by simp only [hterm]; rfl⟩, rfl, rfl, rfl⟩
  | bytes b =>
    rw [hterm] at hr hty
    exact ⟨_, hr, ⟨h.pending, h.staged, rfl, hgroups, h.terms.tail, h.fields⟩,
      ⟨rfl, by simp only [hterm]; rfl⟩, rfl, rfl, rfl⟩

theorem AtRest.readNext_field {f : FieldBlock} {fs : Ftgs} (h : c.AtRest ty [] [] (f :: fs)) :
    ∃ c', readNext.apply c = (.ok .field, c') ∧ c'.AtRest f.field.type [] f.terms fs ∧
      c'.stagedField = f.field ∧ c'.field = c.field ∧ c'.term = c.term ∧ c'.docFreq = c.docFreq := by
  have hin : c.input = .bytes ((Record.field f.field).encode ++
      (remainder [] f.terms fs).flatMap Record.encode) := by
    rw [h.input, remainder_field, List.flatMap_cons]
  obtain ⟨hname, hterms⟩ := h.fields f (by simp)
  exact ⟨_, readNext_record hin hname, ⟨h.pending, rfl, rfl, fun _ hg => by simp at hg, hterms,
    h.fields.tail⟩, rfl, rfl, rfl, rfl⟩

theorem AtRest.readNext_end (h : c.AtRest ty [] [] []) : readNext.apply c = (.ok .eof, c) :=
  Reader.readNext_end (by rw [h.input]; rfl)

/-! ### The loops of an advance, one record at a time -/

theorem seekField_pass {c c₁ : Reader} {p : Pending} (fuel : Nat)
    (ht : takePending.apply c = (.ok p, c₁)) (hp : p = .none ∨ p = .term) :
    (seekField (fuel + 1)).apply c = (seekField fuel).apply c₁ := by
  rcases hp with rfl | rfl <;> simp [seekField, ht]

theorem seekField_field {c c₁ : Reader} (fuel : Nat) (ht : takePending.apply c = (.ok .field, c₁)) :
    (seekField (fuel + 1)).apply c = (.ok true, { c₁ with field := c₁.stagedField }) := by
  simp [seekField, ht]

theorem seekField_eof {c c₁ : Reader} (fuel : Nat) (ht : takePending.apply c = (.ok .eof, c₁)) :
    (seekField (fuel + 1)).apply c = (.ok false, { c₁ with pending := .eof }) := by
  simp [seekField, ht]

theorem seekTerm_pass {c c₁ : Reader} (fuel : Nat) (ht : takePending.apply c = (.ok .none, c₁)) :
    (seekTerm (fuel + 1)).apply c = (seekTerm fuel).apply c₁ := by
  simp [seekTerm, ht]

theorem seekTerm_term {c c₁ : Reader} (fuel : Nat) (ht : takePending.apply c = (.ok .term, c₁)) :
    (seekTerm (fuel + 1)).apply c =
      (.ok true, { c₁ with intTerm := c₁.stagedInt, bytesTerm := c₁.stagedBytes,
                           docFreq := c₁.stagedDocFreq }) := by
  simp [seekTerm, ht]

theorem seekTerm_stop {c c₁ : Reader} {p : Pending} (fuel : Nat)
    (ht : takePending.apply c = (.ok p, c₁)) (hp : p = .field ∨ p = .eof) :
    (seekTerm (fuel + 1)).apply c = (.ok false, { c₁ with pending := p }) := by
  rcases hp with rfl | rfl <;> simp [seekTerm, ht]

theorem nextGroup_row {c c₁ : Reader} (ht : takePending.apply c = (.ok .none, c₁)) :
    nextGroup.apply c = (.ok true, c₁) := by
  simp [nextGroup, ht]

theorem nextGroup_stop {c c₁ : Reader} {p : Pending} (ht : takePending.apply c = (.ok p, c₁))
    (hp : p ≠ .none) : nextGroup.apply c = (.ok false, { c₁ with pending := p }) := by
  cases p with
  | none => exact absurd rfl hp
  | _ => simp [nextGroup, ht]

/-! ### Standing before what is left -/

/-- The reader stands before the groups `gs`, the terms `ts` and the fields `fs`: at rest, or,
with no group left, having read the record after them ahead. -/
def At (c : Reader) (ty : FieldType) (gs : List GroupRow) (ts : List TermBlock) (fs : Ftgs) :
    Prop :=
  c.AtRest ty gs ts fs ∨ gs = [] ∧ c.Ahead ty ts fs

variable {gs : List GroupRow} {ts : List TermBlock} {fs : Ftgs}

/-- Being at rest depends on nothing but the staged field, the input and the bounds. -/
theorem AtRest.congr {c' : Reader} (h : c.AtRest ty gs ts fs) (hp : c'.pending = .none)
    (hs : c'.stagedField = c.stagedField) (hi : c'.input = c.input)
    (hn : c'.numStats = c.numStats) (hg : c'.numGroups = c.numGroups) :
    c'.AtRest ty gs ts fs where
  pending := hp
  staged := by rw [hs]; exact h.staged
  input := by rw [hi]; exact h.input
  groups := by rw [hn, hg]; exact h.groups
  terms := by rw [hn, hg]; exact h.terms
  fields := by rw [hn, hg]; exact h.fields

theorem Ahead.pending_ne (h : c.Ahead ty ts fs) : c.pending ≠ .none := by
  match ts, fs, h with
  | _ :: _, _, h => rw [h.1]; decide
  | [], _ :: _, h => rw [h.1]; decide
  | [], [], h => rw [h.1]; decide

theorem Ahead.pending_stop (h : c.Ahead ty [] fs) : c.pending = .field ∨ c.pending = .eof := by
  match fs, h with
  | _ :: _, h => exact .inl h.1
  | [], h => exact .inr h.1

/-- Taking back a held record and holding it again leaves the reader as it was. -/
theorem rehold (c : Reader) : ({ { c with pending := .none } with pending := c.pending } : Reader) = c :=
  rfl

theorem AtRest.count_le (h : c.AtRest ty gs ts fs) :
    (groupRecords gs ++ termRecords ts).length ≤ c.remaining := by
  have := length_le_flatMap_encode (remainder gs ts fs)
  simp only [remaining, h.input, remainder, List.length_append] at this ⊢
  omega

/-- Reading ahead from rest past the groups: the next term, field or end is held back. -/
theorem AtRest.readNext_ahead (h : c.AtRest ty [] ts fs) :
    ∃ p c', readNext.apply c = (.ok p, c') ∧ p ≠ .none ∧
      ({ c' with pending := p } : Reader).Ahead ty ts fs ∧
      c'.field = c.field ∧ c'.term = c.term ∧ c'.docFreq = c.docFreq := by
  match ts, fs, h with
  | t :: ts, fs, h =>
    obtain ⟨c', hread, h', hholds, hfield, hterm, hdf⟩ := h.readNext_term
    exact ⟨.term, c', hread, by decide, ⟨rfl, hholds, (h.terms t (by simp)).1, h'.congr rfl rfl rfl
      rfl rfl⟩, hfield, hterm, hdf⟩
  | [], f :: fs, h =>
    obtain ⟨c', hread, h', hstaged, hfield, hterm, hdf⟩ := h.readNext_field
    exact ⟨.field, c', hread, by decide, ⟨rfl, hstaged, h'.congr rfl rfl rfl rfl rfl⟩, hfield,
      hterm, hdf⟩
  | [], [], h =>
    exact ⟨.eof, c, h.readNext_end, by decide, ⟨rfl, by rw [h.input]; rfl⟩, rfl, rfl, rfl⟩

/-- A loop that goes on past group records runs through the groups left in the term. -/
theorem AtRest.passGroups {α : Type} {loop : Nat → Step Reader α}
    (hloop : ∀ c c₁ fuel, takePending.apply c = (.ok .none, c₁) →
      (loop (fuel + 1)).apply c = (loop fuel).apply c₁)
    (h : c.AtRest ty gs ts fs) (fuel : Nat) :
    ∃ c₁, (loop (fuel + gs.length)).apply c = (loop fuel).apply c₁ ∧ c₁.AtRest ty [] ts fs ∧
      c₁.field = c.field := by
  induction gs generalizing c with
  | nil => exact ⟨c, rfl, h, rfl⟩
  | cons g gs ih =>
    obtain ⟨c', hread, h', -, -, hfield, -, -⟩ := h.readNext_group
    obtain ⟨c₁, hloop₁, h₁, hfield₁⟩ := ih h'
    refine ⟨c₁, ?_, h₁, hfield₁.trans hfield⟩
    rw [List.length_cons, ← Nat.add_assoc,
      hloop c c' _ ((takePending_none h.pending).trans hread), hloop₁]

/-- Moving to a field runs through the groups and terms left in the current field. -/
theorem AtRest.passTerms (h : c.AtRest ty gs ts fs) (fuel : Nat) :
    ∃ c₁, (seekField (fuel + (groupRecords gs ++ termRecords ts).length)).apply c =
      (seekField fuel).apply c₁ ∧ c₁.AtRest ty [] [] fs := by
  have hpass : ∀ c c₁ fuel, takePending.apply c = (.ok .none, c₁) →
      (seekField (fuel + 1)).apply c = (seekField fuel).apply c₁ :=
    fun _ _ fuel ht => seekField_pass fuel ht (.inl rfl)
  -- the groups of the current term first, then each term with its groups
  obtain ⟨c₁, hskip, h₁, -⟩ := h.passGroups hpass (fuel + (termRecords ts).length)
  rw [List.length_append, show (groupRecords gs).length = gs.length by simp [groupRecords],
    Nat.add_comm gs.length, ← Nat.add_assoc, hskip]
  clear hskip h
  induction ts generalizing c₁ with
  | nil => exact ⟨c₁, rfl, h₁⟩
  | cons t ts ih =>
    obtain ⟨c₂, hread, h₂, -, -, -, -⟩ := h₁.readNext_term
    obtain ⟨c₃, hskip, h₃, -⟩ := h₂.passGroups hpass (fuel + (termRecords ts).length)
    obtain ⟨c₄, hrest, h₄⟩ := ih c₃ h₃
    refine ⟨c₄, ?_, h₄⟩
    rw [length_termRecords_cons, ← Nat.add_assoc, ← Nat.add_assoc,
      seekField_pass _ ((takePending_none h₁.pending).trans hread) (.inr rfl), hskip, hrest]

theorem AtRest.seekField_cons {f : FieldBlock} (h : c.AtRest ty gs ts (f :: fs)) {fuel : Nat}
    (hfuel : (groupRecords gs ++ termRecords ts).length < fuel) :
    ∃ c', (seekField fuel).apply c = (.ok true, c') ∧ c'.AtRest f.field.type [] f.terms fs ∧
      c'.field = f.field := by
  obtain ⟨k, rfl⟩ := Nat.exists_eq_add_of_lt hfuel
  obtain ⟨c₁, hpass, h₁⟩ := h.passTerms (k + 1)
  obtain ⟨c₂, hread, h₂, hstaged, -⟩ := h₁.readNext_field
  refine ⟨{ c₂ with field := c₂.stagedField }, ?_, h₂.congr h₂.pending rfl rfl rfl rfl, hstaged⟩
  rw [show (groupRecords gs ++ termRecords ts).length + k + 1 =
    k + 1 + (groupRecords gs ++ termRecords ts).length by omega, hpass,
    seekField_field _ ((takePending_none h₁.pending).trans hread)]

theorem AtRest.seekField_nil (h : c.AtRest ty gs ts []) {fuel : Nat}
    (hfuel : (groupRecords gs ++ termRecords ts).length < fuel) :
    ∃ c', (seekField fuel).apply c = (.ok false, c') ∧ c'.At ty [] [] [] := by
  obtain ⟨k, rfl⟩ := Nat.exists_eq_add_of_lt hfuel
  obtain ⟨c₁, hpass, h₁⟩ := h.passTerms (k + 1)
  refine ⟨{ c₁ with pending := .eof }, ?_, .inr ⟨rfl, rfl, show c₁.input = _ by rw [h₁.input]; rfl⟩⟩
  rw [show (groupRecords gs ++ termRecords ts).length + k + 1 =
    k + 1 + (groupRecords gs ++ termRecords ts).length by omega, hpass,
    seekField_eof _ ((takePending_none h₁.pending).trans h₁.readNext_end)]

/-! ### The three advances -/

theorem nextField_apply (c : Reader) : nextField.apply c = (seekField (c.remaining + 2)).apply c := by
  simp [nextField]

theorem nextTerm_apply (c : Reader) : nextTerm.apply c = (seekTerm (c.remaining + 2)).apply c := by
  simp [nextTerm]

/-- Moving to a field from before it lands on it, with all its terms left. -/
theorem At.nextField_cons {f : FieldBlock} (h : c.At ty gs ts (f :: fs)) :
    ∃ c', nextField.apply c = (.ok true, c') ∧ c'.At f.field.type [] f.terms fs ∧
      c'.field = f.field := by
  rw [nextField_apply]
  rcases h with h | ⟨rfl, h⟩
  · obtain ⟨c', hc, h', hfield⟩ := h.seekField_cons
      (show _ < c.remaining + 2 by have := h.count_le; omega)
    exact ⟨c', hc, .inl h', hfield⟩
  · cases ts with
    | cons t ts =>
      -- the held term is passed over, and the search goes on from rest
      obtain ⟨hp, -, -, h₁⟩ := h
      obtain ⟨c', hc, h', hfield⟩ := h₁.seekField_cons
        (show _ < c.remaining + 1 from Nat.lt_succ_of_le h₁.count_le)
      refine ⟨c', ?_, .inl h', hfield⟩
      rw [seekField_pass _ (takePending_held hp (by decide)) (.inr rfl)]
      exact hc
    | nil =>
      obtain ⟨hp, hstaged, h₁⟩ := h
      exact ⟨_, seekField_field _ (takePending_held hp (by decide)),
        .inl (h₁.congr rfl rfl rfl rfl rfl), hstaged⟩

/-- Moving to a field with none left answers no and leaves the reader at the end. -/
theorem At.nextField_nil (h : c.At ty gs ts []) :
    ∃ c', nextField.apply c = (.ok false, c') ∧ c'.At ty [] [] [] := by
  rw [nextField_apply]
  rcases h with h | ⟨rfl, h⟩
  · exact h.seekField_nil (show _ < c.remaining + 2 by have := h.count_le; omega)
  · cases ts with
    | cons t ts =>
      obtain ⟨hp, -, -, h₁⟩ := h
      obtain ⟨c', hc, h'⟩ := h₁.seekField_nil
        (show _ < c.remaining + 1 from Nat.lt_succ_of_le h₁.count_le)
      refine ⟨c', ?_, h'⟩
      rw [seekField_pass _ (takePending_held hp (by decide)) (.inr rfl)]
      exact hc
    | nil =>
      obtain ⟨hp, hin⟩ := h
      exact ⟨_, seekField_eof _ (takePending_held hp (by decide)), .inr ⟨rfl, rfl, hin⟩⟩

/-- Committing a held term makes it the current one, read by the type of the field. -/
theorem Holds.commit {t : TermBlock} (h : c.Holds t) (hty : c.field.type = t.term.fieldType) :
    term { c with intTerm := c.stagedInt, bytesTerm := c.stagedBytes,
                  docFreq := c.stagedDocFreq } = t.term := by
  obtain ⟨-, hv⟩ := h
  cases ht : t.term with
  | int v =>
    rw [ht] at hty hv
    simp [term, hty, Term.fieldType, hv]
  | bytes b =>
    rw [ht] at hty hv
    simp [term, hty, Term.fieldType, hv]

/-- Moving to a term or group runs through the groups left in the term. -/
theorem seekTerm_passes (c c₁ : Reader) (fuel : Nat) (ht : takePending.apply c = (.ok .none, c₁)) :
    (seekTerm (fuel + 1)).apply c = (seekTerm fuel).apply c₁ :=
  seekTerm_pass fuel ht

theorem AtRest.length_le (h : c.AtRest ty gs ts fs) : gs.length ≤ c.remaining := by
  have := h.count_le
  simp [groupRecords] at this
  omega

/-- Moving to a term of the current field lands on it, with all its groups left. -/
theorem At.nextTerm_cons {t : TermBlock} (h : c.At ty gs (t :: ts) fs) (hty : c.field.type = ty) :
    ∃ c', nextTerm.apply c = (.ok true, c') ∧ c'.At ty t.groups ts fs ∧ c'.term = t.term ∧
      c'.docFreq = t.docFreq ∧ c'.field = c.field := by
  rw [nextTerm_apply]
  rcases h with h | ⟨rfl, hp, hholds, htype, h₁⟩
  · have hgs := h.length_le
    obtain ⟨c₁, hskip, h₁, hfield₁⟩ := h.passGroups seekTerm_passes (c.remaining + 1 - gs.length + 1)
    obtain ⟨c₂, hread, h₂, hholds, hfield₂, -, -⟩ := h₁.readNext_term
    have hty₂ : c₂.field.type = t.term.fieldType := by
      rw [hfield₂, hfield₁, hty, (h₁.terms t (by simp)).1]
    refine ⟨{ c₂ with intTerm := c₂.stagedInt, bytesTerm := c₂.stagedBytes,
                      docFreq := c₂.stagedDocFreq }, ?_, .inl (h₂.congr h₂.pending rfl rfl rfl rfl),
      hholds.commit hty₂, hholds.1, hfield₂.trans hfield₁⟩
    rw [show c.remaining + 2 = c.remaining + 1 - gs.length + 1 + gs.length by omega, hskip,
      seekTerm_term _ ((takePending_none h₁.pending).trans hread)]
  · exact ⟨_, seekTerm_term _ (takePending_held hp (by decide)), .inl (h₁.congr rfl rfl rfl rfl rfl),
      hholds.commit (hty.trans htype.symm), hholds.1, rfl⟩

/-- Moving to a term with none left in the field answers no and holds back what follows. -/
theorem At.nextTerm_nil (h : c.At ty gs [] fs) :
    ∃ c', nextTerm.apply c = (.ok false, c') ∧ c'.At ty [] [] fs ∧ c'.field = c.field := by
  rw [nextTerm_apply]
  rcases h with h | ⟨rfl, h⟩
  · have hgs := h.length_le
    obtain ⟨c₁, hskip, h₁, hfield₁⟩ := h.passGroups seekTerm_passes (c.remaining + 1 - gs.length + 1)
    obtain ⟨p, c₂, hread, -, hahead, hfield₂, -, -⟩ := h₁.readNext_ahead
    refine ⟨_, ?_, .inr ⟨rfl, hahead⟩, hfield₂.trans hfield₁⟩
    rw [show c.remaining + 2 = c.remaining + 1 - gs.length + 1 + gs.length by omega, hskip,
      seekTerm_stop _ ((takePending_none h₁.pending).trans hread) hahead.pending_stop]
  · refine ⟨c, ?_, .inr ⟨rfl, h⟩, rfl⟩
    rw [seekTerm_stop _ (takePending_held rfl h.pending_ne) h.pending_stop, rehold]

/-- Moving to a group of the current term lands on it. -/
theorem At.nextGroup_cons {g : GroupRow} (h : c.At ty (g :: gs) ts fs) :
    ∃ c', nextGroup.apply c = (.ok true, c') ∧ c'.At ty gs ts fs ∧ c'.group = g.group ∧
      c'.stats = g.stats ∧ c'.field = c.field ∧ c'.term = c.term ∧ c'.docFreq = c.docFreq := by
  rcases h with h | ⟨hnil, -⟩
  · obtain ⟨c', hread, h', hgroup, hstats, hfield, hterm, hdf⟩ := h.readNext_group
    exact ⟨c', nextGroup_row ((takePending_none h.pending).trans hread), .inl h', hgroup, hstats,
      hfield, hterm, hdf⟩
  · cases hnil

/-- Moving to a group with none left in the term answers no and holds back what follows. -/
theorem At.nextGroup_nil (h : c.At ty [] ts fs) :
    ∃ c', nextGroup.apply c = (.ok false, c') ∧ c'.At ty [] ts fs ∧ c'.field = c.field ∧
      c'.term = c.term ∧ c'.docFreq = c.docFreq := by
  rcases h with h | ⟨-, h⟩
  · obtain ⟨p, c', hread, hp, hahead, hfield, hterm, hdf⟩ := h.readNext_ahead
    exact ⟨_, nextGroup_stop ((takePending_none h.pending).trans hread) hp, .inr ⟨rfl, hahead⟩,
      hfield, hterm, hdf⟩
  · refine ⟨c, ?_, .inr ⟨rfl, h⟩, rfl, rfl, rfl⟩
    rw [nextGroup_stop (takePending_held rfl h.pending_ne) h.pending_ne, rehold]

/-! ### Moving as the replay -/

/-- The reader shows what the view of a replay shows and stands before what it has left. -/
structure Shows (c : Reader) (w : Replay.View) : Prop where
  rest : ∃ ty, c.At ty w.groups w.terms w.fields ∧ ∀ f, w.field? = some f → ty = f.field.type
  field : ∀ f, w.field? = some f → c.field = f.field
  term : ∀ t, w.term? = some t → c.term = t.term ∧ c.docFreq = t.docFreq
  group : ∀ g, w.group? = some g → c.group = g.group ∧ c.stats = g.stats

/-- The reader stands where the replay `r` stands. -/
def Tracks (c : Reader) (r : Replay) : Prop := c.Shows r.view

@[simp] theorem cursor_nextField : (Cursor.nextField : Step Reader Bool) = nextField := rfl
@[simp] theorem cursor_nextTerm : (Cursor.nextTerm : Step Reader Bool) = nextTerm := rfl
@[simp] theorem cursor_nextGroup : (Cursor.nextGroup : Step Reader Bool) = nextGroup := rfl
@[simp] theorem cursor_field (c : Reader) : Cursor.field c = c.field := rfl
@[simp] theorem cursor_term (c : Reader) : Cursor.term c = c.term := rfl
@[simp] theorem cursor_docFreq (c : Reader) : Cursor.docFreq c = c.docFreq := rfl
@[simp] theorem cursor_group (c : Reader) : Cursor.group c = c.group := rfl
@[simp] theorem cursor_stats (c : Reader) : Cursor.stats c = c.stats := rfl
@[simp] theorem cursor_budget (c : Reader) : Cursor.budget c = c.remaining + 1 := rfl

/-- The reader moves as the views it shows: each advance answers as a replay standing where the
reader stands and leaves the reader showing where that replay moves to. -/
theorem shows_viewSim : Replay.ViewSim Shows where
  nextField_cons := by
    rintro c w f fs ⟨⟨ty, hat, -⟩, -, -, -⟩ hfs
    rw [hfs] at hat
    obtain ⟨c', hc, hat', hfield'⟩ := hat.nextField_cons
    exact ⟨c', hc, ⟨f.field.type, hat', by simp⟩, by simp [hfield'], by simp, by simp⟩
  nextField_nil := by
    rintro c w ⟨⟨ty, hat, -⟩, -, -, -⟩ hfs
    rw [hfs] at hat
    obtain ⟨c', hc, hat'⟩ := hat.nextField_nil
    exact ⟨c', hc, ⟨ty, hat', by simp⟩, by simp, by simp, by simp⟩
  nextTerm_cons := by
    rintro c w f t ts ⟨⟨ty, hat, hty⟩, hfield, -, -⟩ hf hts
    rw [hts] at hat
    -- the reader reads the terms by the type of the field it stands on
    obtain ⟨c', hc, hat', htm, hdf, hfield'⟩ := hat.nextTerm_cons (by rw [hfield f hf, hty f hf])
    exact ⟨c', hc, ⟨ty, hat', hty⟩, fun f hf => hfield'.trans (hfield f hf), by simp [htm, hdf],
      by simp⟩
  nextTerm_nil := by
    rintro c w ⟨⟨ty, hat, hty⟩, hfield, -, -⟩ hts
    rw [hts] at hat
    obtain ⟨c', hc, hat', hfield'⟩ := hat.nextTerm_nil
    exact ⟨c', hc, ⟨ty, hat', hty⟩, fun f hf => hfield'.trans (hfield f hf), by simp, by simp⟩
  nextGroup_cons := by
    rintro c w g gs ⟨⟨ty, hat, hty⟩, hfield, hterm, -⟩ hgs
    rw [hgs] at hat
    obtain ⟨c', hc, hat', hgroup', hstats', hfield', hterm', hdf'⟩ := hat.nextGroup_cons
    refine ⟨c', hc, ⟨ty, hat', hty⟩, fun f hf => hfield'.trans (hfield f hf), fun t ht => ?_,
      by simp [hgroup', hstats']⟩
    rw [hterm', hdf']
    exact hterm t ht
  nextGroup_nil := by
    rintro c w ⟨⟨ty, hat, hty⟩, hfield, hterm, -⟩ hgs
    rw [hgs] at hat
    obtain ⟨c', hc, hat', hfield', hterm', hdf'⟩ := hat.nextGroup_nil
    refine ⟨c', hc, ⟨ty, hat', hty⟩, fun f hf => hfield'.trans (hfield f hf), fun t ht => ?_,
      by simp⟩
    rw [hterm', hdf']
    exact hterm t ht
  field h hf := h.field _ hf
  term h ht := h.term _ ht
  group h hg := h.group _ hg

/-- A reader moves as the replay it tracks. -/
theorem tracks_simulation : Replay.Simulation Tracks := shows_viewSim.simulation

/-- A reader of the encoding of a stream it accepts tracks the replay of that stream from the
start. -/
theorem tracks_start {numStats : Nat} {numGroups : UInt32} {v : Ftgs}
    (hv : Fits numStats numGroups v) (replayStats : Nat) (replayGroups : UInt32) :
    Tracks (ofBytes (encode v) numStats numGroups)
      { blocks := v, numStats := replayStats, numGroups := replayGroups } := by
  refine ⟨⟨.int, .inl ⟨rfl, rfl, ?_, by simp [GroupsFit], by simp [TermsFit], hv⟩, by simp⟩,
    by simp, by simp, by simp⟩
  simp [ofBytes, create, remainder_start, encode]

end Reader

end Wire

end GroupStats
