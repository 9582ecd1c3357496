import ApproxSet.Proofs.Wire.Cursor

/-!
# Reads that know where their input ends

A read is self-delimiting when an input that it accepts, cut short or with bytes after it, gives an
error of length. Each lemma is about one step of a read: what it has taken so far, and so every
check on it, is the same for the accepted input and for the cut one, up to the step at which the
bytes run out.
-/
namespace ApproxSet

/-- There are fewer or more bytes than the ones before them ask for. -/
def Error.IsLength : Error → Prop
  | .tooShort .. | .lengthMismatch .. => True
  | _ => False

theorem Error.isLength_iff {e : Error} : e.IsLength ↔
    (∃ need got, e = .tooShort need got) ∨
      ∃ expected actual, e = .lengthMismatch expected actual := by
  cases e <;> simp [IsLength]

variable {α β : Type}

structure SelfDelimiting (read : List UInt8 → Except Error α) : Prop where
  /-- Cut short, an accepted input lacks bytes. -/
  cut {input part : List UInt8} {a : α} : read input = .ok a → part <+: input → part ≠ input →
    ∃ e, read part = .error e ∧ e.IsLength
  /-- With bytes after it, an accepted input is too long. -/
  extended {input more : List UInt8} {a : α} : read input = .ok a → more ≠ [] →
    ∃ expected actual, read (input ++ more) = .error (.lengthMismatch expected actual)

namespace Cursor

/-- The step takes the next `k` bytes, or says that there are too few. -/
structure Takes (step : Cursor → Except Error (List UInt8 × Cursor)) (k : Nat) : Prop where
  found {c : Cursor} {r : List UInt8 × Cursor} : c.take? k = some r → step c = .ok r
  lacking {c : Cursor} : c.take? k = none → ∃ e, step c = .error e ∧ e.IsLength

theorem header_takes (k : Nat) : Takes (header · k) k where
  found h := by rw [header, h]
  lacking {c} h := ⟨.tooShort (c.pos + k) c.total, by rw [header, h], trivial⟩

theorem bulk_takes (k : Nat) : Takes (bulk · k) k where
  found h := by rw [bulk, h]
  lacking {c} h := ⟨.lengthMismatch (c.pos + k) c.total, by rw [bulk, h], trivial⟩

namespace Takes

variable {step : Cursor → Except Error (List UInt8 × Cursor)} {k pos : Nat}
  {f : List UInt8 × Cursor → Except Error α}

theorem append (hs : Takes step k) {head : List UInt8} (hk : head.length = k)
    (rest : List UInt8) : step ⟨pos, head ++ rest⟩ >>= f = f (head, ⟨pos + k, rest⟩) := by
  have htake : take? ⟨pos, head ++ rest⟩ k = some (head, ⟨pos + k, rest⟩) :=
    take?_eq_some_iff.mpr ⟨hk, rfl, rfl⟩
  rw [hs.found htake]
  rfl

theorem exists_append (hs : Takes step k) {input : List UInt8} {a : α}
    (h : step ⟨pos, input⟩ >>= f = .ok a) :
    ∃ head rest, input = head ++ rest ∧ head.length = k := by
  cases htake : take? ⟨pos, input⟩ k with
  | some r =>
    obtain ⟨hk, hrest, -⟩ := take?_eq_some_iff.mp htake
    exact ⟨_, _, hrest, hk⟩
  | none =>
    obtain ⟨e, he, -⟩ := hs.lacking htake
    rw [he] at h
    cases h

theorem of_length_lt (hs : Takes step k) {input : List UInt8} (h : input.length < k) :
    ∃ e, step ⟨pos, input⟩ >>= f = .error e ∧ e.IsLength := by
  have htake : take? ⟨pos, input⟩ k = none := if_neg (Nat.not_le.mpr h)
  obtain ⟨e, he, hlength⟩ := hs.lacking htake
  exact ⟨e, by rw [he]; rfl, hlength⟩

end Takes

end Cursor

namespace SelfDelimiting

variable {read : List UInt8 → Except Error α}

theorem error (e : Error) : SelfDelimiting fun _ => (.error e : Except Error α) where
  cut h := by cases h
  extended h := by cases h

/-- A check that does not look at the rest of the input. -/
theorem check {p : Prop} [Decidable p] {e : Error} (h : SelfDelimiting read) :
    SelfDelimiting fun bytes => if p then .error e else read bytes := by
  by_cases hp : p
  · simp only [if_pos hp]
    exact error e
  · simpa only [if_neg hp] using h

/-- A step that does not look at the rest of the input. -/
theorem bind {x : Except Error β} {f : β → List UInt8 → Except Error α}
    (h : ∀ b, SelfDelimiting (f b)) : SelfDelimiting fun bytes => x >>= fun b => f b bytes := by
  cases x with
  | error e => exact error e
  | ok b => exact h b

/-- What is done with the result of a read. -/
theorem andThen (h : SelfDelimiting read) (f : α → Except Error β) :
    SelfDelimiting fun bytes => read bytes >>= f where
  cut {input part b} hb hpart hne := by
    obtain ⟨a, ha, -⟩ := bind_eq_ok_iff.mp hb
    obtain ⟨e, he, hlen⟩ := h.cut ha hpart hne
    exact ⟨e, by rw [he]; rfl, hlen⟩
  extended {input more b} hb hmore := by
    obtain ⟨a, ha, -⟩ := bind_eq_ok_iff.mp hb
    obtain ⟨expected, actual, he⟩ := h.extended ha hmore
    exact ⟨expected, actual, by rw [he]; rfl⟩

theorem map (h : SelfDelimiting read) (f : α → β) :
    SelfDelimiting fun bytes => (read bytes).map f :=
  h.andThen fun a => .ok (f a)

/-! ### Steps of a cursor -/

theorem take {step : Cursor → Except Error (List UInt8 × Cursor)} {k pos : Nat}
    (hs : Cursor.Takes step k) {f : List UInt8 × Cursor → Except Error α}
    (h : ∀ head, SelfDelimiting fun bytes => f (head, ⟨pos + k, bytes⟩)) :
    SelfDelimiting fun bytes => step ⟨pos, bytes⟩ >>= f where
  cut {input part a} ha hpart hne := by
    obtain ⟨head, rest, rfl, hk⟩ := hs.exists_append ha
    rw [hs.append hk] at ha
    by_cases hlen : part.length < k
    · exact hs.of_length_lt hlen
    · -- the part holds the bytes that the step takes
      obtain ⟨part, rfl⟩ := List.prefix_of_prefix_length_le (List.prefix_append head rest) hpart
        (by omega)
      rw [hs.append hk]
      apply (h head).cut ha ((List.prefix_append_right_inj head).mp hpart)
      rintro rfl
      exact hne rfl
  extended {input more a} ha hmore := by
    obtain ⟨head, rest, rfl, hk⟩ := hs.exists_append ha
    rw [hs.append hk] at ha
    rw [List.append_assoc, hs.append hk]
    exact (h head).extended ha hmore

theorem header {k pos : Nat} {f : List UInt8 × Cursor → Except Error α}
    (h : ∀ head, SelfDelimiting fun bytes => f (head, ⟨pos + k, bytes⟩)) :
    SelfDelimiting fun bytes => Cursor.header ⟨pos, bytes⟩ k >>= f :=
  take (Cursor.header_takes k) h

theorem bulk {k pos : Nat} {f : List UInt8 × Cursor → Except Error α}
    (h : ∀ data, SelfDelimiting fun bytes => f (data, ⟨pos + k, bytes⟩)) :
    SelfDelimiting fun bytes => Cursor.bulk ⟨pos, bytes⟩ k >>= f :=
  take (Cursor.bulk_takes k) h

/-- At its end a read accepts no bytes, and names those that are left as too many. -/
theorem finish (pos : Nat) (f : Unit → Except Error α) :
    SelfDelimiting fun bytes => Cursor.finish ⟨pos, bytes⟩ >>= f where
  cut {input part a} ha hpart hne := by
    obtain ⟨rfl, -⟩ := Cursor.finish_bind_eq_ok_iff.mp ha
    exact absurd (List.prefix_nil.mp hpart) hne
  extended {input more a} ha hmore := by
    obtain ⟨rfl, -⟩ := Cursor.finish_bind_eq_ok_iff.mp ha
    refine ⟨pos, pos + more.length, ?_⟩
    simp only [List.nil_append, Cursor.finish, List.isEmpty_iff, if_neg hmore, Cursor.total]
    rfl

end SelfDelimiting

end ApproxSet
