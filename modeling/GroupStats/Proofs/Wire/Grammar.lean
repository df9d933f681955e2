import GroupStats.Proofs.Wire.Reader

/-!
# The grammar the reader accepts

Reading bytes back into a stream (`Cursor.collect` over a `Reader`) succeeds exactly on the bytes
that are records the reader takes one after another (`ReadsFrom`): names and byte terms within
the length limit, groups below the bound with the reader's number of stats, and each term record
of the type of the latest field record before it, an integer field when there is none. Every byte
string is such records followed by bytes that end the input or fail to read (`exists_records`),
so every other byte string fails, as a fault of the stream.

The records come back nested (`nest`): each field record with the term records after it, each
term with the group records right after it. Records that belong nowhere are dropped: those
before the first field record, and the groups between a field record and its first term
(`keptFrom`).

The reader reads one record ahead, and each of its three loops stops on a record it leaves to the
caller. `Reader.Before` says where the reader stands among the records, at rest before them or
holding back the first one, and `Reader.Lands` what a loop that stops before some records gives.
-/

namespace GroupStats

namespace Wire

variable {cur : Field} {ns : Nat} {ng : UInt32}

/-! ### The grammar of a stream -/

/-- The field record the reader checks term records against after reading a record: the record
itself when it is a field record. -/
def Record.after (cur : Field) : Record → Field
  | .field f => f
  | _ => cur

/-- Records the reader takes one after another from the field record `cur` on: each one readable
after the latest field record before it. -/
def ReadsFrom (ns : Nat) (ng : UInt32) : Field → List Record → Prop
  | _, [] => True
  | cur, r :: rs => r.Readable cur ns ng ∧ ReadsFrom ns ng (r.after cur) rs

/-- The latest field record after some records, or `cur` when they hold none. -/
def lastField (cur : Field) (rs : List Record) : Field := rs.foldl Record.after cur

@[simp] theorem lastField_nil (cur : Field) : lastField cur [] = cur := rfl

@[simp] theorem lastField_cons (cur : Field) (r : Record) (rs : List Record) :
    lastField cur (r :: rs) = lastField (r.after cur) rs := rfl

/-- How the bytes after some records end, read after the field record `cur`: there are none
(`none`), or the next record fails to read with `e`. -/
def Ends (cur : Field) (ns : Nat) (ng : UInt32) : Option Error → Bytes → Prop
  | none, tail => tail = []
  | some e, tail => ∃ rest, (readRecord cur ns ng).apply tail = (.error e, rest)

/-- What reading to the end of the bytes gives: the value read when they end cleanly, the fault
that ends them otherwise. -/
def endWith {α : Type} : Option Error → α → Except Error α
  | none, v => .ok v
  | some e, _ => .error e

/-- A record that fails to read fails as a fault of the stream. -/
theorem Ends.corrupt {tail : Bytes} {e : Error} (h : Ends cur ns ng (some e) tail) :
    ∃ f, e = .corrupt f := by
  obtain ⟨rest, hr⟩ := h
  have : ReadOutcome cur ns ng tail ((readRecord cur ns ng).apply tail) := readRecord_outcome tail
  rw [hr] at this
  exact this

/-- Every byte string is records the reader takes, from the field record `cur` on, followed by
bytes that end the input or fail to read. -/
theorem exists_records (cur : Field) (b : Bytes) :
    ∃ rs τ tail, ReadsFrom ns ng cur rs ∧ b = rs.flatMap Record.encode ++ tail ∧
      Ends (lastField cur rs) ns ng τ tail := by
  induction hlen : b.length using Nat.strongRecOn generalizing b cur with
  | _ n ih =>
    have ho : ReadOutcome cur ns ng b ((readRecord cur ns ng).apply b) := readRecord_outcome b
    rcases hr : (readRecord cur ns ng).apply b with ⟨o, rest⟩
    rw [hr] at ho
    rcases o with e | _ | r
    · exact ⟨[], some e, b, trivial, rfl, rest, hr⟩
    · obtain ⟨rfl, -⟩ := ho
      exact ⟨[], none, [], trivial, rfl, rfl⟩
    · -- a record at the front: the rest is shorter
      obtain ⟨rfl, hread⟩ := ho
      have hpos := List.length_pos_iff.mpr (Record.encode_ne_nil r)
      obtain ⟨rs, τ, tail, hrs, hb, hend⟩ :=
        ih rest.length (by rw [← hlen, List.length_append]; omega) (r.after cur) rest rfl
      exact ⟨r :: rs, τ, tail, ⟨hread, hrs⟩, by simp [hb], hend⟩

/-! ### How the reader nests records -/

/-- The group records at the front of some records. -/
def leadingGroups : List Record → List GroupRow
  | .group g stats :: rs => ⟨g, stats⟩ :: leadingGroups rs
  | _ => []

/-- The records after the group records at their front. -/
def skipGroups : List Record → List Record
  | .group _ _ :: rs => skipGroups rs
  | rs => rs

/-- The term records before the first field record, each with the group records right after it. -/
def leadingTerms : List Record → List TermBlock
  | [] => []
  | .field _ :: _ => []
  | .intTerm t df :: rs => ⟨.int t, df, leadingGroups rs⟩ :: leadingTerms rs
  | .bytesTerm b df :: rs => ⟨.bytes b, df, leadingGroups rs⟩ :: leadingTerms rs
  | .group _ _ :: rs => leadingTerms rs

/-- The records from the first field record on. -/
def skipToField : List Record → List Record
  | [] => []
  | .field f :: rs => .field f :: rs
  | _ :: rs => skipToField rs

/-- Records nested as a stream: each field record with the term records after it, each term with
the group records right after it. -/
def nest : List Record → Ftgs
  | [] => []
  | .field f :: rs => ⟨f, leadingTerms rs⟩ :: nest rs
  | _ :: rs => nest rs

theorem Record.after_of_kind {r : Record} (h : r.kind ≠ .field) (cur : Field) :
    r.after cur = cur := by
  cases r <;> simp_all [Record.kind, Record.after]

theorem lastField_of_kind {pre : List Record} (h : ∀ r ∈ pre, r.kind ≠ .field) (cur : Field) :
    lastField cur pre = cur := by
  induction pre generalizing cur with
  | nil => rfl
  | cons r pre ih =>
    rw [lastField_cons, Record.after_of_kind (h r (.head _)), ih (fun r hr => h r (.tail _ hr))]

@[simp] theorem Record.kind_term (t : Term) (df : UInt64) : (Record.term t df).kind = .term := by
  cases t <;> rfl

@[simp] theorem Record.after_term (t : Term) (df : UInt64) (cur : Field) :
    (Record.term t df).after cur = cur := by
  cases t <;> rfl

theorem Record.kind_eq_none {r : Record} (h : r.kind = .none) : ∃ g stats, r = .group g stats := by
  cases r <;> simp_all [Record.kind]

theorem Record.kind_eq_field {r : Record} (h : r.kind = .field) : ∃ f, r = .field f := by
  cases r <;> simp_all [Record.kind]

/-- A term record is read back only after a field record of its type. -/
theorem Record.Readable.term_type {t : Term} {df : UInt64}
    (h : (Record.term t df).Readable cur ns ng) : t.fieldType = cur.type := by
  cases t with
  | int v => exact h.symm
  | bytes b => exact h.1.symm

theorem kind_of_mem_groupRecords {gs : List GroupRow} : ∀ r ∈ groupRecords gs, r.kind = .none := by
  simp [groupRecords, Record.kind]

theorem groupRecords_leadingGroups (rs : List Record) :
    groupRecords (leadingGroups rs) ++ skipGroups rs = rs := by
  induction rs with
  | nil => rfl
  | cons r rs ih =>
    cases r with
    | group g stats =>
      simp only [leadingGroups, skipGroups, groupRecords, List.map_cons, List.cons_append]
      exact congrArg _ ih
    | _ => rfl

/-- After the leading groups come a term record, or a field record or nothing. -/
theorem skipGroups_cases (rs : List Record) :
    (∃ t df rest, skipGroups rs = Record.term t df :: rest) ∨
      ∀ r rest, skipGroups rs = r :: rest → r.kind = .field := by
  induction rs with
  | nil => exact .inr (by simp [skipGroups])
  | cons r rs ih =>
    cases r with
    | field f => exact .inr (by simp [skipGroups, Record.kind])
    | intTerm t df => exact .inl ⟨.int t, df, rs, rfl⟩
    | bytesTerm b df => exact .inl ⟨.bytes b, df, rs, rfl⟩
    | group g stats => exact ih

theorem leadingTerms_skipGroups (rs : List Record) :
    leadingTerms (skipGroups rs) = leadingTerms rs := by
  induction rs with
  | nil => rfl
  | cons r rs ih => cases r <;> first | rfl | exact ih

theorem skipToField_skipGroups (rs : List Record) :
    skipToField (skipGroups rs) = skipToField rs := by
  induction rs with
  | nil => rfl
  | cons r rs ih => cases r <;> first | rfl | exact ih

@[simp] theorem leadingTerms_term (t : Term) (df : UInt64) (rs : List Record) :
    leadingTerms (Record.term t df :: rs) = ⟨t, df, leadingGroups rs⟩ :: leadingTerms rs := by
  cases t <;> rfl

@[simp] theorem skipToField_term (t : Term) (df : UInt64) (rs : List Record) :
    skipToField (Record.term t df :: rs) = skipToField rs := by
  cases t <;> rfl

/-- With no term left before the next field record, no term is nested and that record is next. -/
theorem skipGroups_stop {rs : List Record}
    (h : ∀ r rest, skipGroups rs = r :: rest → r.kind = .field) :
    leadingTerms rs = [] ∧ skipToField rs = skipGroups rs := by
  rw [← leadingTerms_skipGroups, ← skipToField_skipGroups]
  cases hs : skipGroups rs with
  | nil => exact ⟨rfl, rfl⟩
  | cons r rest =>
    obtain ⟨f, rfl⟩ := Record.kind_eq_field (h r rest hs)
    exact ⟨rfl, rfl⟩

theorem length_skipGroups_le (rs : List Record) : (skipGroups rs).length ≤ rs.length := by
  have := congrArg List.length (groupRecords_leadingGroups rs)
  rw [List.length_append] at this
  omega

theorem exists_prefix_skipToField (rs : List Record) :
    ∃ pre, rs = pre ++ skipToField rs ∧ ∀ r ∈ pre, r.kind ≠ .field := by
  induction rs with
  | nil => exact ⟨[], rfl, by simp⟩
  | cons r rs ih =>
    obtain ⟨pre, hpre, hk⟩ := ih
    cases r with
    | field f => exact ⟨[], rfl, by simp⟩
    | intTerm t df =>
      exact ⟨_ :: pre, congrArg _ hpre, by simpa [Record.kind] using hk⟩
    | bytesTerm b df =>
      exact ⟨_ :: pre, congrArg _ hpre, by simpa [Record.kind] using hk⟩
    | group g stats =>
      exact ⟨_ :: pre, congrArg _ hpre, by simpa [Record.kind] using hk⟩

theorem skipToField_cases (rs : List Record) :
    skipToField rs = [] ∨ ∃ f rest, skipToField rs = .field f :: rest := by
  induction rs with
  | nil => exact .inl rfl
  | cons r rs ih =>
    cases r with
    | field f => exact .inr ⟨f, rs, rfl⟩
    | _ => exact ih

theorem nest_skipToField (rs : List Record) : nest (skipToField rs) = nest rs := by
  induction rs with
  | nil => rfl
  | cons r rs ih => cases r <;> first | rfl | exact ih

theorem length_skipToField_le (rs : List Record) : (skipToField rs).length ≤ rs.length := by
  obtain ⟨pre, hpre, -⟩ := exists_prefix_skipToField rs
  have := congrArg List.length hpre
  rw [List.length_append] at this
  omega

/-- How far into a field the records so far have gone: before any field record, past a field
record but before its first term, or past a term. -/
inductive Level where
  | start
  | field
  | term
  deriving DecidableEq, Repr

/-- The level after a record; a term before the first field leaves it at the start. -/
def Level.next (l : Level) : Record → Level
  | .field _ => .field
  | .group _ _ => l
  | _ => if l = .start then .start else .term

/-- Whether a record read at a level belongs to the stream: a field always, a term once a field
was read, a group once a term of the field was read. -/
def Level.keeps (l : Level) : Record → Bool
  | .field _ => true
  | .group _ _ => l = .term
  | _ => l ≠ .start

/-- The records that belong to the stream, read from level `l` on. -/
def keptFrom : Level → List Record → List Record
  | _, [] => []
  | l, r :: rs => if l.keeps r then r :: keptFrom (l.next r) rs else keptFrom (l.next r) rs

/-- What is kept from each level on is what the nesting holds from there on. -/
theorem keptFrom_eq (rs : List Record) :
    keptFrom .start rs = remainder [] [] (nest rs) ∧
      keptFrom .field rs = remainder [] (leadingTerms rs) (nest rs) ∧
      keptFrom .term rs = remainder (leadingGroups rs) (leadingTerms rs) (nest rs) := by
  induction rs with
  | nil => exact ⟨rfl, rfl, rfl⟩
  | cons r rs ih =>
    obtain ⟨hs, hf, ht⟩ := ih
    cases r with
    | field f => simp [keptFrom, Level.keeps, Level.next, nest, leadingTerms, leadingGroups, hf]
    | intTerm t df =>
      simp [keptFrom, Level.keeps, Level.next, nest, leadingTerms, leadingGroups, hs, ht,
        Record.term]
    | bytesTerm b df =>
      simp [keptFrom, Level.keeps, Level.next, nest, leadingTerms, leadingGroups, hs, ht,
        Record.term]
    | group g stats =>
      simp [keptFrom, Level.keeps, Level.next, nest, leadingTerms, leadingGroups, hs, hf, ht]

/-- The nesting of some records holds the records that belong to the stream. -/
theorem records_nest (rs : List Record) : records (nest rs) = keptFrom .start rs := by
  rw [(keptFrom_eq rs).1, remainder_start]

namespace Reader

/-! ### Where the reader stands among records -/

@[simp] theorem stage_stagedField (c : Reader) (r : Record) :
    (c.stage r).stagedField = r.after c.stagedField := by
  cases r <;> rfl

@[simp] theorem stage_stage (c : Reader) (r : Record) : (c.stage r).stage r = c.stage r := by
  cases r <;> rfl

theorem stage_pending_set (c : Reader) (r : Record) (p : Pending) :
    ({ c with pending := p } : Reader).stage r = { c.stage r with pending := p } := by
  cases r <;> rfl

theorem readNext_fail {c : Reader} {b rest : Bytes} {e : Error} (hin : c.input = .bytes b)
    (hr : (readRecord c.stagedField c.numStats c.numGroups).apply b = (.error e, rest)) :
    readNext.apply c = (.error e, { c with input := .bytes rest }) := by
  simp [readNext, hin, hr]

/-- The reader has read nothing ahead and its staged field is `cur`; its input holds the records
`rs`, which it takes in turn, and then bytes that end as `τ` says. -/
structure Rests (c : Reader) (cur : Field) (rs : List Record) (τ : Option Error) : Prop where
  pending : c.pending = .none
  staged : c.stagedField = cur
  reads : ReadsFrom c.numStats c.numGroups cur rs
  input : ∃ tail, c.input = .bytes (rs.flatMap Record.encode ++ tail) ∧
    Ends (lastField cur rs) c.numStats c.numGroups τ tail

/-- The reader holds back the first of the records `rs`, read after the field record `cur`: a
field or term record already in its staging slot, or the end of the input. -/
def HoldsBack (c : Reader) (cur : Field) : List Record → Option Error → Prop
  | r :: rs, τ => r.kind ≠ .none ∧ c.pending = r.kind ∧ c.stage r = c ∧
      r.Readable cur c.numStats c.numGroups ∧ Rests { c with pending := .none } (r.after cur) rs τ
  | [], none => c.pending = .eof ∧ c.input = .bytes []
  | [], some _ => False

/-- The reader stands before the records `rs`, read after the field record `cur`: at rest, or
holding back the first of them. -/
def Before (c : Reader) (cur : Field) (rs : List Record) (τ : Option Error) : Prop :=
  Rests c cur rs τ ∨ HoldsBack c cur rs τ

variable {c : Reader} {cur : Field} {r : Record} {rs : List Record} {τ : Option Error}

/-- Being at rest depends on nothing but what is held back, the staged field, the input and the
bounds. -/
theorem Rests.congr {c' : Reader} (h : Rests c cur rs τ) (hp : c'.pending = c.pending)
    (hs : c'.stagedField = c.stagedField) (hi : c'.input = c.input)
    (hn : c'.numStats = c.numStats) (hg : c'.numGroups = c.numGroups) : Rests c' cur rs τ where
  pending := hp.trans h.pending
  staged := hs.trans h.staged
  reads := by rw [hn, hg]; exact h.reads
  input := by rw [hi, hn, hg]; exact h.input

/-- A reader at rest that holds back the record it has just staged stands before that record. -/
theorem Rests.holdBack (h : Rests c (r.after cur) rs τ) (hk : r.kind ≠ .none) (hs : c.stage r = c)
    (hr : r.Readable cur c.numStats c.numGroups) :
    HoldsBack { c with pending := r.kind } cur (r :: rs) τ :=
  ⟨hk, rfl, by rw [stage_pending_set, hs], hr, h.congr h.pending.symm rfl rfl rfl rfl⟩

theorem Rests.length_le (h : Rests c cur rs τ) : rs.length ≤ c.remaining := by
  obtain ⟨tail, hin, -⟩ := h.input
  have := length_le_flatMap_encode rs
  simp only [remaining, hin, List.length_append]
  omega

/-- The records the reader stands before are at most one more than the bytes it has left. -/
theorem Before.length_le (h : Before c cur rs τ) : rs.length ≤ c.remaining + 1 := by
  rcases h with h | h
  · exact Nat.le_succ_of_le h.length_le
  · match rs, τ, h with
    | _ :: _, _, ⟨_, _, _, _, hrest⟩ => exact Nat.succ_le_succ hrest.length_le
    | [], none, _ => exact Nat.zero_le _

/-- Taking the next record from before it: the reader reports its kind, stages it, and rests
before the records after it, on the same field. -/
theorem Before.takePending_cons (h : Before c cur (r :: rs) τ) :
    ∃ c₁, takePending.apply c = (.ok r.kind, c₁) ∧ Rests c₁ (r.after cur) rs τ ∧
      c₁.stage r = c₁ ∧ c₁.field = c.field ∧ r.Readable cur c₁.numStats c₁.numGroups := by
  rcases h with h | ⟨hk, hp, hstage, hr, hrest⟩
  · obtain ⟨tail, hin, hend⟩ := h.input
    have hin' : c.input = .bytes (r.encode ++ (rs.flatMap Record.encode ++ tail)) := by
      rw [hin, List.flatMap_cons, List.append_assoc]
    have hread := readNext_record hin' (h.staged ▸ h.reads.1)
    refine ⟨_, (takePending_none h.pending).trans hread, ⟨?_, ?_, ?_, ⟨tail, ?_, ?_⟩⟩,
      stage_stage _ _, stage_field _ _, by simpa using h.reads.1⟩
    · simp [h.pending]
    · simp [h.staged]
    · simpa using h.reads.2
    · simp
    · simpa using hend
  · refine ⟨_, takePending_held hp hk, hrest, ?_, rfl, hr⟩
    rw [stage_pending_set, hstage]

/-- Taking a field or term record and holding it back again. -/
theorem Before.takeBack (h : Before c cur (r :: rs) τ) (hk : r.kind ≠ .none) :
    ∃ c₁, takePending.apply c = (.ok r.kind, c₁) ∧
      HoldsBack { c₁ with pending := r.kind } cur (r :: rs) τ ∧ c₁.field = c.field := by
  obtain ⟨c₁, ht, hrest, hs, hf, hr⟩ := h.takePending_cons
  exact ⟨c₁, ht, hrest.holdBack hk hs hr, hf⟩

/-- Past the last record of bytes that end cleanly the reader finds the end. -/
theorem Before.takePending_end (h : Before c cur [] none) :
    ∃ c₁, takePending.apply c = (.ok .eof, c₁) ∧ c₁.input = .bytes [] ∧ c₁.field = c.field := by
  rcases h with h | ⟨hp, hin⟩
  · obtain ⟨tail, hin, hend⟩ := h.input
    have hin' : c.input = .bytes [] := by
      rw [hin]
      exact congrArg _ hend
    exact ⟨c, (takePending_none h.pending).trans (readNext_end hin'), hin', rfl⟩
  · exact ⟨_, takePending_held hp (by decide), hin, rfl⟩

/-- Past the last record of bytes that end in a fault the reader fails with it. -/
theorem Before.takePending_fail {e : Error} (h : Before c cur [] (some e)) :
    ∃ c₁, takePending.apply c = (.error e, c₁) ∧ c₁.field = c.field := by
  rcases h with h | h
  · obtain ⟨tail, hin, rest, hr⟩ := h.input
    have hin' : c.input = .bytes tail := by simpa using hin
    rw [lastField_nil, ← h.staged] at hr
    exact ⟨_, (takePending_none h.pending).trans (readNext_fail hin' hr), rfl⟩
  · exact h.elim

/-- A loop that goes on past some kinds of record runs through a stretch of them. -/
theorem Before.pass {α : Type} {loop : Nat → Step Reader α} {skip : Pending → Prop}
    (hloop : ∀ c c₁ p fuel, skip p → takePending.apply c = (.ok p, c₁) →
      (loop (fuel + 1)).apply c = (loop fuel).apply c₁)
    {pre : List Record} (hpre : ∀ r ∈ pre, skip r.kind) (h : Before c cur (pre ++ rs) τ)
    (fuel : Nat) :
    ∃ c₁, (loop (fuel + pre.length)).apply c = (loop fuel).apply c₁ ∧
      Before c₁ (lastField cur pre) rs τ ∧ c₁.field = c.field := by
  induction pre generalizing c cur with
  | nil => exact ⟨c, rfl, h, rfl⟩
  | cons r pre ih =>
    obtain ⟨c₁, ht, hrest, -, hfield, -⟩ := Before.takePending_cons h
    obtain ⟨c₂, hloop₂, h₂, hfield₂⟩ := ih (fun r hr => hpre r (.tail _ hr)) (.inl hrest)
    refine ⟨c₂, ?_, h₂, hfield₂.trans hfield⟩
    rw [List.length_cons, ← Nat.add_assoc, hloop c c₁ _ _ (hpre r (.head _)) ht, hloop₂]

theorem seekTerm_fail {c c₁ : Reader} {e : Error} (fuel : Nat)
    (ht : takePending.apply c = (.error e, c₁)) :
    (seekTerm (fuel + 1)).apply c = (.error e, c₁) := by
  simp [seekTerm, ht]

theorem seekField_fail {c c₁ : Reader} {e : Error} (fuel : Nat)
    (ht : takePending.apply c = (.error e, c₁)) :
    (seekField (fuel + 1)).apply c = (.error e, c₁) := by
  simp [seekField, ht]

theorem nextGroup_fail {c c₁ : Reader} {e : Error} (ht : takePending.apply c = (.error e, c₁)) :
    nextGroup.apply c = (.error e, c₁) := by
  simp [nextGroup, ht]

/-! ### The three loops of reading a stream back -/

/-- What a loop that stops before the records `rest` can give: `v`, with the reader holding back
the first of them, or, when none is left, the fault that ends the bytes. -/
def Lands {α : Type} (cur : Field) (rest : List Record) (τ : Option Error) (v : α) :
    Except Error α × Reader → Prop
  | (.ok v', c') => v' = v ∧ HoldsBack c' cur rest τ
  | (.error e, _) => rest = [] ∧ τ = some e

/-- Moving to a term runs through the group records before the next term or field record. -/
theorem Before.nextTerm_skip (h : Before c cur rs τ) :
    ∃ c₁ k, nextTerm.apply c = (seekTerm (k + 1)).apply c₁ ∧ Before c₁ cur (skipGroups rs) τ ∧
      c₁.field = c.field := by
  have hlen := h.length_le
  rw [← groupRecords_leadingGroups rs] at h hlen
  rw [List.length_append] at hlen
  have hpass : ∀ c c₁ p fuel, p = .none → takePending.apply c = (.ok p, c₁) →
      (seekTerm (fuel + 1)).apply c = (seekTerm fuel).apply c₁ :=
    fun _ _ _ fuel hp ht => by subst hp; exact seekTerm_pass fuel ht
  obtain ⟨c₁, hloop, h₁, hfield⟩ := Before.pass hpass kind_of_mem_groupRecords h
    (c.remaining + 1 - (groupRecords (leadingGroups rs)).length + 1)
  refine ⟨c₁, c.remaining + 1 - (groupRecords (leadingGroups rs)).length, ?_, ?_, hfield⟩
  · rw [nextTerm_apply, ← hloop]
    congr 2
    omega
  · rwa [lastField_of_kind (fun r hr => by simp [kind_of_mem_groupRecords r hr])] at h₁

/-- Moving to a term when a term record comes before the next field record lands on it. -/
theorem Before.nextTerm_term {t : Term} {df : UInt64} {rest : List Record}
    (h : Before c cur rs τ) (hs : skipGroups rs = Record.term t df :: rest)
    (hty : c.field.type = cur.type) :
    ∃ c', nextTerm.apply c = (.ok true, c') ∧ Rests c' cur rest τ ∧ c'.field = c.field ∧
      c'.term = t ∧ c'.docFreq = df := by
  obtain ⟨c₁, k, hnext, h₁, hfield⟩ := h.nextTerm_skip
  rw [hs] at h₁
  obtain ⟨c₂, ht, hrest, hstage, hfield₂, hread⟩ := h₁.takePending_cons
  rw [Record.kind_term] at ht
  rw [Record.after_term] at hrest
  have hholds : c₂.Holds ⟨t, df, []⟩ := by
    cases t <;> (rw [← hstage]; exact ⟨rfl, rfl⟩)
  have htype : c₂.field.type = t.fieldType := by
    rw [hfield₂, hfield, hty, hread.term_type]
  exact ⟨_, hnext.trans (seekTerm_term k ht), hrest.congr rfl rfl rfl rfl rfl,
    hfield₂.trans hfield, hholds.commit htype, hholds.1⟩

/-- Moving to a term when a field record or the end comes first answers no and holds it back. -/
theorem Before.nextTerm_stop (h : Before c cur rs τ)
    (hs : ∀ r rest, skipGroups rs = r :: rest → r.kind = .field) :
    Lands cur (skipGroups rs) τ false (nextTerm.apply c) ∧
      (nextTerm.apply c).2.field = c.field := by
  obtain ⟨c₁, k, hnext, h₁, hfield⟩ := h.nextTerm_skip
  rw [hnext]
  cases hsk : skipGroups rs with
  | nil =>
    rw [hsk] at h₁
    cases τ with
    | none =>
      obtain ⟨c₂, ht, hin, hf⟩ := h₁.takePending_end
      rw [seekTerm_stop k ht (.inr rfl)]
      exact ⟨⟨rfl, rfl, hin⟩, hf.trans hfield⟩
    | some e =>
      obtain ⟨c₂, ht, hf⟩ := h₁.takePending_fail
      rw [seekTerm_fail k ht]
      exact ⟨⟨rfl, rfl⟩, hf.trans hfield⟩
  | cons r rest =>
    rw [hsk] at h₁
    have hk := hs r rest hsk
    obtain ⟨c₂, ht, hback, hf⟩ := h₁.takeBack (by rw [hk]; decide)
    rw [hk] at ht hback
    rw [seekTerm_stop k ht (.inl rfl)]
    exact ⟨⟨rfl, hback⟩, hf.trans hfield⟩

/-- Moving to a field runs through the records before the next field record. -/
theorem Before.nextField_skip (h : Before c cur rs τ) :
    ∃ c₁ k, nextField.apply c = (seekField (k + 1)).apply c₁ ∧
      Before c₁ cur (skipToField rs) τ := by
  have hlen := h.length_le
  obtain ⟨pre, hpre, hkind⟩ := exists_prefix_skipToField rs
  rw [hpre] at h hlen
  rw [List.length_append] at hlen
  have hskip : ∀ r ∈ pre, r.kind = .none ∨ r.kind = .term := by
    intro r hr
    have := hkind r hr
    cases r <;> simp [Record.kind] at this ⊢
  have hpass : ∀ c c₁ p fuel, (p = .none ∨ p = .term) → takePending.apply c = (.ok p, c₁) →
      (seekField (fuel + 1)).apply c = (seekField fuel).apply c₁ :=
    fun _ _ _ fuel hp ht => seekField_pass fuel ht hp
  obtain ⟨c₁, hloop, h₁, -⟩ := Before.pass hpass hskip h (c.remaining + 1 - pre.length + 1)
  refine ⟨c₁, c.remaining + 1 - pre.length, ?_, by rwa [lastField_of_kind hkind] at h₁⟩
  rw [nextField_apply, ← hloop]
  congr 2
  omega

variable {fuel n : Nat}

/-- Collecting groups takes the group records before the next term or field record. -/
theorem Before.collectGroups_lands (h : Before c cur rs τ) (hfuel : rs.length < fuel) :
    Lands cur (skipGroups rs) τ (leadingGroups rs)
        ((Cursor.collectGroups fuel : Step Reader (List GroupRow)).apply c) ∧
      ((Cursor.collectGroups fuel : Step Reader (List GroupRow)).apply c).2.field = c.field := by
  induction fuel generalizing c rs with
  | zero => exact absurd hfuel (Nat.not_lt_zero _)
  | succ fuel ih =>
    cases rs with
    | nil =>
      cases τ with
      | none =>
        obtain ⟨c₁, ht, hin, hf⟩ := h.takePending_end
        simp only [Cursor.collectGroups, Step.apply_bind, cursor_nextGroup,
          nextGroup_stop ht (by decide)]
        exact ⟨⟨rfl, rfl, hin⟩, hf⟩
      | some e =>
        obtain ⟨c₁, ht, hf⟩ := h.takePending_fail
        simp only [Cursor.collectGroups, Step.apply_bind, cursor_nextGroup, nextGroup_fail ht]
        exact ⟨⟨rfl, rfl⟩, hf⟩
    | cons r rs =>
      by_cases hk : r.kind = .none
      · -- a group record: take it and go on
        obtain ⟨g, stats, rfl⟩ := Record.kind_eq_none hk
        obtain ⟨c₁, ht, hrest, hstage, hfield, -⟩ := h.takePending_cons
        have hrow : c₁.group = g ∧ c₁.stats = stats := by
          rw [← hstage]
          exact ⟨rfl, rfl⟩
        have hnext := ih (.inl hrest) (by simp at hfuel; omega)
        simp only [Cursor.collectGroups, Step.apply_bind, cursor_nextGroup, nextGroup_row ht,
          if_true, Step.apply_get, cursor_group, cursor_stats, hrow.1, hrow.2]
        rcases hres : (Cursor.collectGroups fuel : Step Reader (List GroupRow)).apply c₁
          with ⟨_ | v, c'⟩
        · rw [hres] at hnext
          exact ⟨hnext.1, hnext.2.trans hfield⟩
        · rw [hres] at hnext
          exact ⟨⟨by rw [hnext.1.1]; rfl, hnext.1.2⟩, hnext.2.trans hfield⟩
      · -- a field or term record: hold it back
        obtain ⟨c₁, ht, hback, hf⟩ := h.takeBack hk
        have hgs : leadingGroups (r :: rs) = [] ∧ skipGroups (r :: rs) = r :: rs := by
          cases r <;> simp_all [Record.kind, leadingGroups, skipGroups]
        simp only [Cursor.collectGroups, Step.apply_bind, cursor_nextGroup, nextGroup_stop ht hk,
          hgs]
        exact ⟨⟨rfl, hback⟩, hf⟩

/-- Collecting terms takes the term records before the next field record, each with the group
records right after it. -/
theorem Before.collectTerms_lands (h : Before c cur rs τ) (hty : c.field.type = cur.type)
    (hfuel : rs.length < fuel) (hn : rs.length < n) :
    Lands cur (skipToField rs) τ (leadingTerms rs)
        ((Cursor.collectTerms fuel n : Step Reader (List TermBlock)).apply c) ∧
      ((Cursor.collectTerms fuel n : Step Reader (List TermBlock)).apply c).2.field = c.field := by
  induction n generalizing c rs with
  | zero => exact absurd hn (Nat.not_lt_zero _)
  | succ n ih =>
    rcases skipGroups_cases rs with ⟨t, df, rest, hs⟩ | hs
    · -- a term record: take it, its groups, and the terms after them
      obtain ⟨c₁, hnext, h₁, hfield₁, hterm, hdf⟩ := h.nextTerm_term hs hty
      have hrest : rest.length < rs.length := by
        have := length_skipGroups_le rs
        rw [hs, List.length_cons] at this
        omega
      have hgroups := Before.collectGroups_lands (.inl h₁) (show _ < fuel by omega)
      have hnest : leadingTerms rs = ⟨t, df, leadingGroups rest⟩ :: leadingTerms (skipGroups rest) ∧
          skipToField rs = skipToField (skipGroups rest) := by
        rw [← leadingTerms_skipGroups rs, ← skipToField_skipGroups rs, hs, leadingTerms_term,
          skipToField_term, leadingTerms_skipGroups, skipToField_skipGroups]
        exact ⟨rfl, rfl⟩
      simp only [Cursor.collectTerms, Step.apply_bind, cursor_nextTerm, hnext, if_true,
        Step.apply_get, cursor_term, cursor_docFreq, hterm, hdf, hnest.1, hnest.2]
      rcases hres : (Cursor.collectGroups fuel : Step Reader (List GroupRow)).apply c₁
        with ⟨_ | gs, c₂⟩
      · rw [hres] at hgroups
        obtain ⟨⟨hnil, he⟩, hf⟩ := hgroups
        exact ⟨⟨by rw [hnil]; rfl, he⟩, hf.trans hfield₁⟩
      · rw [hres] at hgroups
        obtain ⟨⟨rfl, hback⟩, hf₂⟩ := hgroups
        have hterms := ih (.inr hback) (by rw [hf₂, hfield₁, hty])
          (Nat.lt_of_le_of_lt (length_skipGroups_le rest) (by omega))
          (Nat.lt_of_le_of_lt (length_skipGroups_le rest) (by omega))
        dsimp only
        rcases hres' : (Cursor.collectTerms fuel n : Step Reader (List TermBlock)).apply c₂
          with ⟨_ | ts, c₃⟩
        · rw [hres'] at hterms
          exact ⟨hterms.1, hterms.2.trans (hf₂.trans hfield₁)⟩
        · rw [hres'] at hterms
          exact ⟨⟨by rw [hterms.1.1], hterms.1.2⟩, hterms.2.trans (hf₂.trans hfield₁)⟩
    · -- a field record or the end: no term is left in the field
      obtain ⟨hlead, hskip⟩ := skipGroups_stop hs
      obtain ⟨hl, hf⟩ := h.nextTerm_stop hs
      rw [hlead, hskip]
      simp only [Cursor.collectTerms, Step.apply_bind, cursor_nextTerm]
      rcases hres : nextTerm.apply c with ⟨_ | b, c₁⟩
      · rw [hres] at hl hf
        exact ⟨hl, hf⟩
      · rw [hres] at hl hf
        obtain ⟨rfl, hback⟩ := hl
        exact ⟨⟨rfl, hback⟩, hf⟩

/-- Collecting fields reads every field record with the terms after it, and ends as the bytes
end. -/
theorem Before.collectFields_eq (h : Before c cur rs τ) (hfuel : rs.length < fuel)
    (hn : rs.length < n) :
    ((Cursor.collectFields fuel n : Step Reader Ftgs).apply c).1 = endWith τ (nest rs) := by
  induction n generalizing c cur rs with
  | zero => exact absurd hn (Nat.not_lt_zero _)
  | succ n ih =>
    obtain ⟨c₁, k, hnext, h₁⟩ := h.nextField_skip
    rcases skipToField_cases rs with hs | ⟨f, rest, hs⟩
    · -- no field record is left: the bytes end here
      rw [hs] at h₁
      rw [← nest_skipToField, hs]
      cases τ with
      | none =>
        obtain ⟨c₂, ht, -, -⟩ := h₁.takePending_end
        simp [Cursor.collectFields, hnext, seekField_eof k ht, endWith, nest]
      | some e =>
        obtain ⟨c₂, ht, -⟩ := h₁.takePending_fail
        simp [Cursor.collectFields, hnext, seekField_fail k ht, endWith]
    · -- a field record: move to it, take its terms, and go on from the next field record
      rw [hs] at h₁
      obtain ⟨c₂, ht, hrest, -, -, -⟩ := h₁.takePending_cons
      have hstaged : c₂.stagedField = f := hrest.staged
      have hlen : rest.length < rs.length := by
        have := length_skipToField_le rs
        rw [hs, List.length_cons] at this
        omega
      have hterms := Before.collectTerms_lands (n := fuel)
        (.inl (show Rests { c₂ with field := c₂.stagedField } _ _ _ from
          hrest.congr rfl rfl rfl rfl rfl))
        (by rw [hstaged]; rfl) (show _ < fuel by omega) (by omega)
      rw [← nest_skipToField, hs]
      simp only [Cursor.collectFields, Step.apply_bind, cursor_nextField, hnext,
        seekField_field k ht, if_true]
      rcases hres : (Cursor.collectTerms fuel fuel : Step Reader (List TermBlock)).apply
          { c₂ with field := c₂.stagedField } with ⟨_ | ts, c₃⟩
      · rw [hres] at hterms
        obtain ⟨⟨-, he⟩, -⟩ := hterms
        simp [he, endWith]
      · rw [hres] at hterms
        obtain ⟨⟨rfl, hback⟩, hf₃⟩ := hterms
        have hfields := ih (.inr hback)
          (Nat.lt_of_le_of_lt (length_skipToField_le rest) (by omega))
          (Nat.lt_of_le_of_lt (length_skipToField_le rest) (by omega))
        rw [nest_skipToField] at hfields
        simp only [Step.apply_get, cursor_field]
        rcases hres' : (Cursor.collectFields fuel n : Step Reader Ftgs).apply c₃ with ⟨_ | fs, c₄⟩
        · rw [hres'] at hfields
          cases τ <;> simp_all [endWith]
        · rw [hres'] at hfields
          cases τ <;> simp_all [endWith, nest]

end Reader

/-- Reading bytes that hold records the reader takes and then end as `τ` says gives the records
nested, or the fault that ends the bytes. -/
theorem collect_records {rs : List Record} {τ : Option Error} {tail : Bytes}
    (hrs : ReadsFrom ns ng (Field.int "") rs)
    (hend : Ends (lastField (Field.int "") rs) ns ng τ tail) :
    (Cursor.collect.apply (Reader.ofBytes (rs.flatMap Record.encode ++ tail) ns ng)).1 =
      endWith τ (nest rs) := by
  have h : Reader.Rests (Reader.ofBytes (rs.flatMap Record.encode ++ tail) ns ng)
      (Field.int "") rs τ :=
    ⟨rfl, rfl, hrs, tail, rfl, hend⟩
  have hlen := h.length_le
  simp only [Cursor.collect, Step.apply_bind, Step.apply_get, Reader.cursor_budget]
  exact Reader.Before.collectFields_eq (.inl h) (by omega) (by omega)

theorem collect_encode_records {rs : List Record} (hrs : ReadsFrom ns ng (Field.int "") rs) :
    (Cursor.collect.apply (Reader.ofBytes (rs.flatMap Record.encode) ns ng)).1 = .ok (nest rs) := by
  simpa [endWith] using collect_records (τ := none) hrs (show Ends _ ns ng none [] from rfl)

/-- The reader takes exactly the bytes made of records it accepts, each term record typed by the
latest field record before it; they read back as those records nested into fields and terms, and
writing that out gives back the bytes less the records the nesting drops. Any other bytes fail as a
fault of the stream. -/
theorem collect_reads_exactly_records (b : Bytes) (ns : Nat) (ng : UInt32) :
    ((∃ v, (Cursor.collect.apply (Reader.ofBytes b ns ng)).1 = .ok v) ↔
        ∃ rs, ReadsFrom ns ng (Field.int "") rs ∧ b = rs.flatMap Record.encode) ∧
      (∀ rs, ReadsFrom ns ng (Field.int "") rs → b = rs.flatMap Record.encode →
        (Cursor.collect.apply (Reader.ofBytes b ns ng)).1 = .ok (nest rs) ∧
          encode (nest rs) = (keptFrom .start rs).flatMap Record.encode) ∧
      ∀ e, (Cursor.collect.apply (Reader.ofBytes b ns ng)).1 = .error e → ∃ f, e = .corrupt f := by
  obtain ⟨rs, τ, tail, hrs, hb, hend⟩ := @exists_records ns ng (Field.int "") b
  have hcollect := collect_records hrs hend
  rw [← hb] at hcollect
  refine ⟨⟨fun ⟨v, hv⟩ => ?_, fun ⟨rs', hrs', hb'⟩ => ⟨_, hb' ▸ collect_encode_records hrs'⟩⟩,
    fun rs' hrs' hb' => ⟨hb' ▸ collect_encode_records hrs', by rw [encode, records_nest]⟩,
    fun e he => ?_⟩
  · -- bytes that read back end cleanly after their records
    cases τ with
    | none =>
      have htail : tail = [] := hend
      exact ⟨rs, hrs, by rw [hb, htail, List.append_nil]⟩
    | some e => simp [hcollect, endWith] at hv
  · cases τ with
    | none => simp [hcollect, endWith] at he
    | some e' =>
      simp only [hcollect, endWith, Except.error.injEq] at he
      exact he ▸ Ends.corrupt hend

/-- A stream with a group before its first term: the group is dropped. -/
theorem collect_drops_group_before_term :
    (Cursor.collect.apply (Reader.ofBytes ([Record.intTerm 3 1, .field ⟨"f", .int⟩, .group 0 [5],
        .intTerm 7 2, .group 1 [6]].flatMap Record.encode) 1 2)).1 =
      .ok [⟨⟨"f", .int⟩, [⟨.int 7, 2, [⟨1, [6]⟩]⟩]⟩] :=
  ((collect_reads_exactly_records _ 1 2).2.1
    [.intTerm 3 1, .field ⟨"f", .int⟩, .group 0 [5], .intTerm 7 2, .group 1 [6]] ⟨rfl, by
      simpa [Record.Readable, Utf8.ofString_eq_flatMap, maxLength] using
        Nat.le_trans (Char.utf8Size_le_four 'f') (by decide), ⟨by simp, rfl⟩, rfl,
      ⟨by simp, rfl⟩, trivial⟩
    rfl).1

end Wire

end GroupStats
