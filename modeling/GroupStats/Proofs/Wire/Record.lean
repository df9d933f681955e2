import GroupStats.Wire.Reader
import GroupStats.Proofs.Step
import GroupStats.Proofs.Bytes
import GroupStats.Proofs.Text.Utf8

/-!
# Reading a record back

`readRecord` takes back every record the writer encodes, leaving exactly the bytes after it,
as long as the record is one the reader accepts: a name or byte term within the length limit,
a term of the type of the field it follows, a group below the bound with the expected number
of stats. At the end of the input it reports the end.

Conversely, nothing else reads back (`readRecord_outcome`): whatever `readRecord` takes is the
encoding of a record it accepts, and every other input fails as a fault of the stream.
-/

namespace GroupStats

namespace Wire

/-- Whether the reader takes a record back as written, after a field record `current`. -/
def Record.Readable (current : Field) (numStats : Nat) (numGroups : UInt32) : Record → Prop
  | .field f => (Bytes.ofString f.name).length ≤ maxLength
  | .intTerm _ _ => current.type = .int
  | .bytesTerm b _ => current.type = .string ∧ b.length ≤ maxLength
  | .group g stats => g < numGroups ∧ stats.length = numStats

/-! ### Taking bytes -/

theorem take_append {n : Nat} {xs : Bytes} (rest : Bytes) (h : xs.length = n) :
    (take n).apply (xs ++ rest) = (.ok xs, rest) := by
  subst h
  simp [take]

@[simp] theorem takeByte_cons (b : UInt8) (rest : Bytes) :
    takeByte.apply (b :: rest) = (.ok b, rest) := by
  simp [takeByte, take]

theorem takeLength_encode {xs : Bytes} (rest : Bytes) (h : xs.length ≤ maxLength) :
    takeLength.apply (Bytes.ofUInt32 (UInt32.ofNat xs.length) ++ rest) = (.ok xs.length, rest) := by
  have hmod : xs.length % 4294967296 = xs.length :=
    Nat.mod_eq_of_lt (by unfold maxLength at h; omega)
  have hn : ¬ maxLength < xs.length := Nat.not_lt.mpr h
  simp [takeLength, take_append rest (Bytes.length_ofUInt32 _), hmod, hn]

theorem takeStats_encode (stats : List Int64) (rest : Bytes) :
    (takeStats stats.length).apply (stats.flatMap Bytes.ofInt64 ++ rest) = (.ok stats, rest) := by
  induction stats with
  | nil => rfl
  | cons v vs ih =>
    simp only [List.length_cons, takeStats, List.flatMap_cons, List.append_assoc]
    simp [take_append _ (Bytes.length_ofInt64 v), ih]

/-! ### One record -/

variable {current : Field} {numStats : Nat} {numGroups : UInt32}

theorem readRecord_nil : (readRecord current numStats numGroups).apply [] = (.ok none, []) := by
  simp [readRecord]

theorem readRecord_field (f : Field) (rest : Bytes) (h : (Bytes.ofString f.name).length ≤ maxLength) :
    (readRecord current numStats numGroups).apply ((Record.field f).encode ++ rest) =
      (.ok (some (.field f)), rest) := by
  simp [readRecord, Record.encode, fieldTag, takeLength_encode _ h, take_append rest rfl]


theorem readRecord_intTerm (t : Int64) (df : UInt64) (rest : Bytes) (h : current.type = .int) :
    (readRecord current numStats numGroups).apply ((Record.intTerm t df).encode ++ rest) =
      (.ok (some (.intTerm t df)), rest) := by
  simp [readRecord, Record.encode, fieldTag, intTermTag, h, take_append _ (Bytes.length_ofInt64 t),
    take_append rest (Bytes.length_ofUInt64 df)]

theorem readRecord_bytesTerm (b : Bytes) (df : UInt64) (rest : Bytes) (h : current.type = .string)
    (hb : b.length ≤ maxLength) :
    (readRecord current numStats numGroups).apply ((Record.bytesTerm b df).encode ++ rest) =
      (.ok (some (.bytesTerm b df)), rest) := by
  simp [readRecord, Record.encode, fieldTag, intTermTag, bytesTermTag, h, takeLength_encode _ hb,
    take_append _ rfl, take_append rest (Bytes.length_ofUInt64 df)]

theorem readRecord_group (g : GroupId) (stats : List Int64) (rest : Bytes) (h : g < numGroups)
    (hs : stats.length = numStats) :
    (readRecord current numStats numGroups).apply ((Record.group g stats).encode ++ rest) =
      (.ok (some (.group g stats)), rest) := by
  subst hs
  have hg : ¬ numGroups ≤ g := UInt32.not_le.mpr h
  simp [readRecord, Record.encode, fieldTag, intTermTag, bytesTermTag, groupTag, hg,
    take_append _ (Bytes.length_ofUInt32 g), takeStats_encode]

/-- The reader takes back every readable record and leaves the bytes after it. -/
theorem readRecord_encode {r : Record} (h : r.Readable current numStats numGroups) (rest : Bytes) :
    (readRecord current numStats numGroups).apply (r.encode ++ rest) = (.ok (some r), rest) := by
  cases r with
  | field f => exact readRecord_field f rest h
  | intTerm t df => exact readRecord_intTerm t df rest h
  | bytesTerm b df => exact readRecord_bytesTerm b df rest h.1 h.2
  | group g stats => exact readRecord_group g stats rest h.1 h.2

/-! ### Only encoded records read back -/

theorem take_cases (n : Nat) (b : Bytes) :
    (∃ xs rest, xs.length = n ∧ b = xs ++ rest ∧ (take n).apply b = (.ok xs, rest)) ∨
      (take n).apply b = (.error (.corrupt .truncated), []) := by
  by_cases hn : n ≤ b.length
  · exact .inl ⟨b.take n, b.drop n, by simp [hn], (List.take_append_drop n b).symm,
      by simp [take, hn]⟩
  · exact .inr (by simp [take, hn])

theorem takeByte_cases (b : Bytes) :
    (∃ x rest, b = x :: rest ∧ takeByte.apply b = (.ok x, rest)) ∨
      takeByte.apply b = (.error (.corrupt .truncated), []) := by
  cases b with
  | nil => exact .inr (by simp [takeByte, take])
  | cons x rest => exact .inl ⟨x, rest, rfl, takeByte_cons x rest⟩

/-- A length word the reader takes: four bytes whose value is within the limit. -/
theorem takeLength_cases (b : Bytes) :
    (∃ w rest, b = Bytes.ofUInt32 w ++ rest ∧ w.toNat ≤ maxLength ∧
      takeLength.apply b = (.ok w.toNat, rest)) ∨
      ∃ f rest, takeLength.apply b = (.error (.corrupt f), rest) := by
  rcases take_cases 4 b with ⟨xs, rest, hlen, hb, ht⟩ | ht
  · match xs, hlen with
    | [x₀, x₁, x₂, x₃], _ =>
      by_cases hmax : (Bytes.toUInt32 [x₀, x₁, x₂, x₃]).toNat > maxLength
      · exact .inr ⟨.tooLong (Bytes.toUInt32 [x₀, x₁, x₂, x₃]).toNat, rest,
          by simp [takeLength, ht, hmax]⟩
      · refine .inl ⟨Bytes.toUInt32 [x₀, x₁, x₂, x₃], rest, ?_, Nat.le_of_not_lt hmax,
          by simp [takeLength, ht, hmax]⟩
        rw [hb, Bytes.ofUInt32_toUInt32]
  · exact .inr ⟨.truncated, [], by simp [takeLength, ht]⟩

/-- Stats the reader takes: eight bytes each. -/
theorem takeStats_cases (k : Nat) (b : Bytes) :
    (∃ stats rest, stats.length = k ∧ b = stats.flatMap Bytes.ofInt64 ++ rest ∧
      (takeStats k).apply b = (.ok stats, rest)) ∨
      ∃ rest, (takeStats k).apply b = (.error (.corrupt .truncated), rest) := by
  induction k generalizing b with
  | zero => exact .inl ⟨[], b, rfl, rfl, rfl⟩
  | succ k ih =>
    rcases take_cases 8 b with ⟨xs, rest, hlen, hb, ht⟩ | ht
    · match xs, hlen with
      | [x₀, x₁, x₂, x₃, x₄, x₅, x₆, x₇], _ =>
        rcases ih rest with ⟨stats, rest', hk, hr, hs⟩ | ⟨rest', hs⟩
        · refine .inl ⟨(Bytes.toUInt64 [x₀, x₁, x₂, x₃, x₄, x₅, x₆, x₇]).toInt64 :: stats, rest',
            by simp [hk], ?_, by simp [takeStats, ht, hs]⟩
          rw [hb, hr, List.flatMap_cons, Bytes.ofInt64, UInt64.toUInt64_toInt64,
            Bytes.ofUInt64_toUInt64, List.append_assoc]
        · exact .inr ⟨rest', by simp [takeStats, ht, hs]⟩
    · exact .inr ⟨[], by simp [takeStats, ht]⟩

theorem ofUInt64_toUInt64_of_length {xs : Bytes} (h : xs.length = 8) :
    Bytes.ofUInt64 (Bytes.toUInt64 xs) = xs := by
  match xs, h with
  | [_, _, _, _, _, _, _, _], _ => exact Bytes.ofUInt64_toUInt64 ..

theorem ofUInt32_toUInt32_of_length {xs : Bytes} (h : xs.length = 4) :
    Bytes.ofUInt32 (Bytes.toUInt32 xs) = xs := by
  match xs, h with
  | [_, _, _, _], _ => exact Bytes.ofUInt32_toUInt32 ..

theorem flag_of_ofFlag? {b : UInt8} {t : FieldType} (h : FieldType.ofFlag? b = some t) :
    t.flag = b := by
  unfold FieldType.ofFlag? at h
  split at h
  · cases h; next hb => exact hb.symm
  · split at h
    · cases h; next hb => exact hb.symm
    · cases h

/-- What reading one record after the field record `current` can give: the end of an empty
input; a record the reader takes, written at the front of the input; or a fault of the stream. -/
def ReadOutcome (current : Field) (numStats : Nat) (numGroups : UInt32) (b : Bytes) :
    Except Error (Option Record) × Bytes → Prop
  | (.ok none, rest) => b = [] ∧ rest = []
  | (.ok (some r), rest) => b = r.encode ++ rest ∧ r.Readable current numStats numGroups
  | (.error e, _) => ∃ f, e = .corrupt f

theorem readOutcome_corrupt {b rest : Bytes} (f : StreamFault) :
    ReadOutcome current numStats numGroups b (.error (.corrupt f), rest) := ⟨f, rfl⟩

theorem readRecord_field_outcome (rest₀ : Bytes) :
    ReadOutcome current numStats numGroups (fieldTag :: rest₀)
      ((readRecord current numStats numGroups).apply (fieldTag :: rest₀)) := by
  simp only [readRecord, Step.apply_bind, Step.apply_get, Step.apply_set, if_true]
  rcases takeByte_cases rest₀ with ⟨flag, rest₁, rfl, h₁⟩ | h₁
  · cases hf : FieldType.ofFlag? flag with
    | none => simpa [h₁, hf] using readOutcome_corrupt (.unknownFlag flag)
    | some type =>
      rcases takeLength_cases rest₁ with ⟨w, rest₂, rfl, hmax, h₂⟩ | ⟨f, rest₂, h₂⟩
      · rcases take_cases w.toNat rest₂ with ⟨name, rest₃, hlen, rfl, h₃⟩ | h₃
        · cases hd : Utf8.decode name with
          | error failure =>
            simpa [h₁, hf, h₂, h₃, hd] using readOutcome_corrupt (.badName failure)
          | ok s =>
            have hs := Utf8.ofString_of_decode hd
            simp only [h₁, hf, h₂, h₃, hd, Step.apply_bind, Step.apply_pure]
            refine ⟨?_, show (Bytes.ofString s).length ≤ maxLength by rw [hs, hlen]; exact hmax⟩
            simp [Record.encode, hs, hlen, flag_of_ofFlag? hf, fieldTag]
        · simpa [h₁, hf, h₂, h₃] using readOutcome_corrupt .truncated
      · simpa [h₁, hf, h₂] using readOutcome_corrupt f
  · simpa [h₁] using readOutcome_corrupt .truncated

theorem readRecord_intTerm_outcome (rest₀ : Bytes) :
    ReadOutcome current numStats numGroups (intTermTag :: rest₀)
      ((readRecord current numStats numGroups).apply (intTermTag :: rest₀)) := by
  simp only [readRecord, Step.apply_bind, Step.apply_get, Step.apply_set,
    show intTermTag ≠ fieldTag by decide, if_true, if_false]
  by_cases hty : current.type = .int
  · rcases take_cases 8 rest₀ with ⟨xs, rest₁, hx, rfl, h₁⟩ | h₁
    · rcases take_cases 8 rest₁ with ⟨ys, rest₂, hy, rfl, h₂⟩ | h₂
      · simp only [hty, ne_eq, not_true_eq_false, if_false, h₁, h₂, Step.apply_bind,
          Step.apply_pure]
        refine ⟨?_, hty⟩
        simp [Record.encode, intTermTag, Bytes.ofInt64, ofUInt64_toUInt64_of_length hx,
          ofUInt64_toUInt64_of_length hy]
      · simpa [hty, h₁, h₂] using readOutcome_corrupt .truncated
    · simpa [hty, h₁] using readOutcome_corrupt .truncated
  · simpa [hty] using readOutcome_corrupt (.misplacedTerm .int current)

theorem readRecord_bytesTerm_outcome (rest₀ : Bytes) :
    ReadOutcome current numStats numGroups (bytesTermTag :: rest₀)
      ((readRecord current numStats numGroups).apply (bytesTermTag :: rest₀)) := by
  simp only [readRecord, Step.apply_bind, Step.apply_get, Step.apply_set,
    show bytesTermTag ≠ fieldTag by decide, show bytesTermTag ≠ intTermTag by decide, if_true,
    if_false]
  by_cases hty : current.type = .string
  · rcases takeLength_cases rest₀ with ⟨w, rest₁, rfl, hmax, h₁⟩ | ⟨f, rest₁, h₁⟩
    · rcases take_cases w.toNat rest₁ with ⟨b, rest₂, hb, rfl, h₂⟩ | h₂
      · rcases take_cases 8 rest₂ with ⟨ys, rest₃, hy, rfl, h₃⟩ | h₃
        · simp only [hty, ne_eq, not_true_eq_false, if_false, h₁, h₂, h₃, Step.apply_bind,
            Step.apply_pure]
          refine ⟨?_, hty, by rw [hb]; exact hmax⟩
          simp [Record.encode, bytesTermTag, hb, ofUInt64_toUInt64_of_length hy]
        · simpa [hty, h₁, h₂, h₃] using readOutcome_corrupt .truncated
      · simpa [hty, h₁, h₂] using readOutcome_corrupt .truncated
    · simpa [hty, h₁] using readOutcome_corrupt f
  · simpa [hty] using readOutcome_corrupt (.misplacedTerm .string current)

theorem readRecord_group_outcome (rest₀ : Bytes) :
    ReadOutcome current numStats numGroups (groupTag :: rest₀)
      ((readRecord current numStats numGroups).apply (groupTag :: rest₀)) := by
  simp only [readRecord, Step.apply_bind, Step.apply_get, Step.apply_set,
    show groupTag ≠ fieldTag by decide, show groupTag ≠ intTermTag by decide,
    show groupTag ≠ bytesTermTag by decide, if_true, if_false]
  rcases take_cases 4 rest₀ with ⟨xs, rest₁, hx, rfl, h₁⟩ | h₁
  · by_cases hg : numGroups ≤ Bytes.toUInt32 xs
    · simpa [h₁, hg] using readOutcome_corrupt (.groupRange (Bytes.toUInt32 xs) numGroups)
    · rcases takeStats_cases numStats rest₁ with ⟨stats, rest₂, hs, rfl, h₂⟩ | ⟨rest₂, h₂⟩
      · simp only [h₁, ge_iff_le, hg, if_false, h₂, Step.apply_bind, Step.apply_pure]
        refine ⟨?_, UInt32.not_le.mp hg, hs⟩
        simp [Record.encode, groupTag, ofUInt32_toUInt32_of_length hx]
      · simpa [h₁, hg, h₂] using readOutcome_corrupt .truncated
  · simpa [h₁] using readOutcome_corrupt .truncated

/-- Reading one record gives the end of an empty input, a record the reader takes at the front
of the input, or a fault of the stream. -/
theorem readRecord_outcome (b : Bytes) :
    ReadOutcome current numStats numGroups b
      ((readRecord current numStats numGroups).apply b) := by
  match b with
  | [] =>
    rw [readRecord_nil]
    exact ⟨rfl, rfl⟩
  | tag :: rest₀ =>
    by_cases hf : tag = fieldTag
    · subst hf; exact readRecord_field_outcome rest₀
    by_cases hi : tag = intTermTag
    · subst hi; exact readRecord_intTerm_outcome rest₀
    by_cases hb : tag = bytesTermTag
    · subst hb; exact readRecord_bytesTerm_outcome rest₀
    by_cases hg : tag = groupTag
    · subst hg; exact readRecord_group_outcome rest₀
    simpa [readRecord, hf, hi, hb, hg] using readOutcome_corrupt (.unknownTag tag)

end Wire

end GroupStats
