import ApproxSet.Blob
import ApproxSet.Proofs.Filter

/-!
# Blobs

The tag of a blob tells its family and whether the filter stands in for another, so a blob of a
stored filter is read back.
-/
namespace ApproxSet.Blob

/-- What a stored blob is known to be. -/
def Stored (b : Blob) : Prop := ∀ f, b.filter? = some f → f.Stored

/-- The low seven bits of a tag name the family, the top bit the role. -/
theorem tag_parts (family : Family) :
    family.id ≠ 0 ∧ family.id &&& 0x7f = family.id ∧ family.id &&& fallbackBit = 0 ∧
      family.id ||| fallbackBit ≠ 0 ∧ (family.id ||| fallbackBit) &&& 0x7f = family.id ∧
      (family.id ||| fallbackBit) &&& fallbackBit ≠ 0 := by
  rcases family with w | w | w | _ | w | ⟨w, p⟩ | _ | _ <;> (try cases w) <;> (try cases p) <;>
    decide

theorem decode_encode {b : Blob} (hb : b.Stored) : decode b.encode = .ok b := by
  cases b with
  | empty => rfl
  | alwaysTrue => rfl
  | primary f =>
    obtain ⟨hne, hlow, htop, -⟩ := tag_parts f.family
    have hid := Family.ofId?_id f.family_ne_ribbonWithFallback
    have hf := Filter.decode_encode (hb f rfl)
    simp only [encode, decode, hlow, hid, hf, htop]
    simp [hne, Except.map]
  | fallback f =>
    obtain ⟨-, -, -, hne, hlow, htop⟩ := tag_parts f.family
    have hid := Family.ofId?_id f.family_ne_ribbonWithFallback
    have hf := Filter.decode_encode (hb f rfl)
    simp only [encode, decode, hlow, hid, hf]
    simp [hne, htop, Except.map]

/-- The accepted bytes: none, a blob that contains everything, and a filter behind its tag. -/
theorem decode_cases {bytes : List UInt8} {b : Blob} (h : decode bytes = .ok b) :
    (bytes = [] ∧ b = .empty) ∨ (bytes = [0, currentVersion] ∧ b = .alwaysTrue) ∨
      ∃ tag body family f, bytes = tag :: currentVersion :: body ∧
        Family.ofId? (tag &&& 0x7f) = some family ∧ Filter.decode family body = .ok f ∧
        b = if tag &&& fallbackBit ≠ 0 then .fallback f else .primary f := by
  match bytes with
  | [] =>
    cases h
    exact .inl ⟨rfl, rfl⟩
  | [_] => cases h
  | tag :: version :: body =>
    simp only [decode] at h
    split at h
    · cases h
    · rename_i hversion
      obtain rfl : version = currentVersion := not_not.mp hversion
      split at h
      · rename_i htag
        split at h
        · rename_i hbody
          cases h
          exact .inr (.inl ⟨by rw [htag, List.isEmpty_iff.mp hbody], rfl⟩)
        · cases h
      · split at h
        · cases h
        · rename_i family hid
          obtain ⟨f, hf, rfl⟩ := map_eq_ok_iff.mp h
          refine .inr (.inr ⟨tag, body, family, f, rfl, hid, hf, ?_⟩)
          split <;> rfl

theorem stored_of_decode {bytes : List UInt8} {b : Blob} (h : decode bytes = .ok b) : b.Stored := by
  obtain ⟨-, rfl⟩ | ⟨-, rfl⟩ | ⟨tag, body, family, f, -, -, hf, rfl⟩ := decode_cases h
  · intro f hf
    cases hf
  · intro f hf
    cases hf
  · obtain ⟨hstored, -⟩ := Filter.stored_of_decode hf
    split <;> rintro _ ⟨⟩ <;> exact hstored

/-- A tag is put together from its family and its role. -/
theorem tag_join (tag : UInt8) :
    (if tag &&& fallbackBit ≠ 0 then (tag &&& 0x7f) ||| fallbackBit else tag &&& 0x7f) = tag := by
  rcases tag with ⟨tag⟩
  revert tag
  decide +kernel

theorem encode_of_decode {bytes : List UInt8} {b : Blob} (h : decode bytes = .ok b) :
    b.encode = bytes := by
  obtain ⟨rfl, rfl⟩ | ⟨rfl, rfl⟩ | ⟨tag, body, family, f, rfl, hid, hf, rfl⟩ := decode_cases h
  · rfl
  · rfl
  · obtain ⟨-, rfl, rfl⟩ := Filter.stored_of_decode hf
    have htag := tag_join tag
    rw [← Family.id_of_ofId? hid] at htag
    split <;> rename_i hrole
    · rw [if_pos hrole] at htag
      rw [encode, htag]
    · rw [if_neg hrole] at htag
      rw [encode, htag]

/-- The accepted bytes are the encodings of the stored blobs. -/
theorem decode_eq_ok_iff {bytes : List UInt8} {b : Blob} :
    decode bytes = .ok b ↔ b.Stored ∧ b.encode = bytes := by
  constructor
  · exact fun h => ⟨stored_of_decode h, encode_of_decode h⟩
  · rintro ⟨hstored, rfl⟩
    exact decode_encode hstored

theorem length_encode (b : Blob) : b.encode.length = b.size := by
  cases b with
  | empty => rfl
  | alwaysTrue => rfl
  | primary f | fallback f =>
    simp only [encode, size, List.length_cons, f.length_encode]
    omega

end ApproxSet.Blob
